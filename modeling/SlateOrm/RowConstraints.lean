import SlateOrm.ConsistentRuns
import SlateOrm.FilledColumns

namespace SlateOrm

open List RecordTransaction

/-!
# Rows that meet their constraints

A row is validated and its constraints are checked as it is supplied, before the
record layer fills in columns of its own.  Where no timestamp in such a column
can break what was checked, everything that is kept in a store is kept of rows
that meet their constraints, whatever operations have been carried out.
-/

section

variable [Platform]

/-! ## What is checked of a row -/

/-- A valid row that no constraint of its table is false of. -/
structure Row.Satisfies (row : Row) (table : TableDef) : Prop where
  valid : row.validate table = .ok ()
  checks : ∀ check ∈ table.checks, check.satisfiedBy row = true

theorem satisfiedBy_of_checkConstraints
    {table : TableDef} {row : Row}
    (checked : checkConstraints table row = .ok ()) :
    ∀ check ∈ table.checks, check.satisfiedBy row = true := by
  rw [checkConstraints] at checked
  split at checked
  · next none_ =>
      intro check member
      rw [List.isEmpty_iff, map_eq_nil_iff, filter_eq_nil_iff] at none_
      simpa using none_ check member
  · cases checked

/--
A table whose rows meet their constraints whatever timestamps stand in the
columns that the store fills in.
-/
def TableDef.AcceptsStamps (table : TableDef) : Prop :=
  ∀ (row : Row) (stamps : Ordinal → Option Int64),
    table.Fills stamps → row.Satisfies table → (row.refilled stamps).Satisfies table

variable {existing : Row}

namespace RecordTransaction

variable
  {records : RecordTransaction}
  {context : SecurityContext}
  {table : TableDef}
  {row : Row}
  {snapshot : Snapshot}

variable {passed : Unit}

theorem satisfies_of_checkInsert
    (checked : records.checkInsert context table row snapshot = .ok passed) :
    row.Satisfies table := by
  have valid := (checkInsert_spec checked).1
  replace checked := ok_of_bind checked
  replace checked := ok_of_bind checked
  replace checked := ok_of_bind checked
  obtain ⟨_, constraints, _⟩ := bind_eq_ok.mp checked
  exact ⟨valid, satisfiedBy_of_checkConstraints constraints⟩

theorem satisfiedBy_of_checkReplacement
    {action : Action} {existing : Option Row}
    (checked : records.checkReplacement context table action row existing
      snapshot = .ok passed) :
    ∀ check ∈ table.checks, check.satisfiedBy row = true := by
  replace checked := ok_of_bind checked
  obtain ⟨_, constraints, _⟩ := bind_eq_ok.mp checked
  exact satisfiedBy_of_checkConstraints constraints

theorem satisfies_of_checkUpdate
    (checked : records.checkUpdate context table row snapshot = .ok existing) :
    row.Satisfies table := by
  have valid := (checkUpdate_spec checked).1
  replace checked := ok_of_bind checked
  replace checked := ok_of_bind checked
  replace checked := ok_of_bind checked
  obtain ⟨found, _, checked⟩ := bind_eq_ok.mp checked
  cases found with
  | none => cases checked
  | some stored =>
      obtain ⟨_, replaces, _⟩ := bind_eq_ok.mp checked
      exact ⟨valid, satisfiedBy_of_checkReplacement replaces⟩

theorem satisfies_of_checkUpdateIfUnchanged
    {expected : Row}
    (checked : records.checkUpdateIfUnchanged context table row expected
      snapshot = .ok existing) :
    row.Satisfies table := by
  have valid := validate_of_checkUpdateIfUnchanged checked
  replace checked := ok_of_bind checked
  replace checked := ok_of_bind checked
  replace checked := ok_of_bind checked
  replace checked := ok_of_bind checked
  dsimp only at checked
  split at checked
  · cases checked
  · obtain ⟨found, _, checked⟩ := bind_eq_ok.mp checked
    cases found with
    | none => cases checked
    | some stored =>
        dsimp only at checked
        split at checked
        · cases checked
        · obtain ⟨_, replaces, _⟩ := bind_eq_ok.mp checked
          exact ⟨valid, satisfiedBy_of_checkReplacement replaces⟩

theorem satisfies_of_checkUpsert
    {existing : Option Row}
    (checked : records.checkUpsert context table row snapshot = .ok existing) :
    row.Satisfies table := by
  have valid := (checkUpsert_spec checked).1
  replace checked := ok_of_bind checked
  replace checked := ok_of_bind checked
  replace checked := ok_of_bind checked
  replace checked := ok_of_bind checked
  replace checked := ok_of_bind checked
  obtain ⟨_, _, checked⟩ := bind_eq_ok.mp checked
  obtain ⟨_, _, checked⟩ := bind_eq_ok.mp checked
  split at checked
  · cases checked
  · obtain ⟨_, replaces, _⟩ := bind_eq_ok.mp checked
    exact ⟨valid, satisfiedBy_of_checkReplacement replaces⟩

theorem satisfies_of_checkMany
    {rows : List Row} {mode : BulkMode} {existing : List (Option Row)}
    (checked : records.checkMany context table rows mode snapshot = .ok existing) :
    ∀ row ∈ rows, row.Satisfies table := by
  have keys := (checked_of_checkMany checked).keys
  rw [checkMany] at checked
  dsimp only at checked
  replace checked := ok_of_guarded ok_of_bind checked
  replace checked := ok_of_guarded (fun passed =>
    ok_of_bind (ok_of_bind passed)) checked
  replace checked := ok_of_bind checked
  replace checked := ok_of_bind checked
  obtain ⟨_, constraints, _⟩ := bind_eq_ok.mp checked
  intro row member
  exact ⟨((checkBulkKeys_spec keys).1 row member).1,
    satisfiedBy_of_checkConstraints (checkEach_eq_ok constraints row member)⟩

theorem satisfies_of_checkMatched
    (checked : records.checkMatched context table row existing snapshot = .ok passed) :
    row.Satisfies table := by
  obtain ⟨_, valid, checked⟩ := bind_eq_ok.mp checked
  exact ⟨liftSchema_eq_ok.mp valid, satisfiedBy_of_checkReplacement checked⟩

end RecordTransaction

/-! ## Lawful rows -/

variable
  {catalog : Catalog}
  {wellFormed : catalog.WellFormed}

/-- A row of a catalog that no constraint of its table is false of. -/
def CatalogRow.Lawful (record : CatalogRow catalog) : Prop :=
  ∀ check ∈ record.table.checks, check.satisfiedBy record.row = true

/-- Everything that a state keeps for a catalog is kept of lawful rows. -/
def Catalog.KeepsLawful {catalog : Catalog}
    (wellFormed : catalog.WellFormed) (state : RecordState) : Prop :=
  (catalog.layout wellFormed).Comprises CatalogRow.Lawful
    (catalog.view state.transaction.get)

/-- A row that equals a lawful one. -/
def Catalog.LawfulAs (catalog : Catalog) (table : TableDef) (row : Row) :
    Prop :=
  ∃ record : CatalogRow catalog,
    record.Lawful ∧ record.table = table ∧ row.Same record.row

/-- Tables whose rows meet their constraints whatever the store fills in. -/
def Catalog.AcceptsStamps (catalog : Catalog) : Prop :=
  ∀ table ∈ catalog.tables, table.AcceptsStamps

namespace Catalog.LawfulAs

variable
  {table : TableDef}
  {row : Row}

theorem of_satisfies
    (inCatalog : table ∈ catalog.tables)
    (satisfies : row.Satisfies table) (fits : row.Fits) :
    catalog.LawfulAs table row :=
  ⟨⟨table, row, inCatalog, satisfies.valid, fits⟩, satisfies.checks, rfl, .refl row⟩

theorem refilled
    (accepts : catalog.AcceptsStamps) (lawful : catalog.LawfulAs table row)
    {stamps : Ordinal → Option Int64} (fills : table.Fills stamps) :
    catalog.LawfulAs table (row.refilled stamps) := by
  obtain ⟨record, isLawful, rfl, same⟩ := lawful
  have satisfies : record.row.Satisfies record.table := ⟨record.valid, isLawful⟩
  obtain ⟨valid, checks⟩ := accepts record.table record.inCatalog record.row
    stamps fills satisfies
  exact ⟨⟨record.table, record.row.refilled stamps, record.inCatalog, valid,
    record.fits.refilled stamps⟩, checks, rfl, same.refilled stamps⟩

end Catalog.LawfulAs

/-! ## What each operation keeps -/

namespace RecordTransaction

open Write

variable
  {records : RecordTransaction}
  {context : SecurityContext}
  {table : TableDef}
  {row : Row}

theorem upholds_put
    {record : CatalogRow catalog} (lawful : record.Lawful) {key value : Bytes}
    (image : (catalog.layout wellFormed).Image record key value) :
    Upholds (Catalog.KeepsLawful wellFormed) (put key value) (fun _ => True) := by
  refine fun state before => ⟨?_, fun _ _ => trivial⟩
  rw [run_put]
  refine comprises_changed before (fun change member held isHeld => ?_)
  rw [mem_singleton.mp member] at isHeld ⊢
  cases isHeld
  exact ⟨record, lawful, image⟩

theorem upholds_delete
    (key : Bytes) :
    Upholds (Catalog.KeepsLawful wellFormed) (Write.delete key) (fun _ => True) := by
  refine fun state before => ⟨?_, fun _ _ => trivial⟩
  rw [run_delete]
  refine comprises_changed before (fun change member held isHeld => ?_)
  rw [mem_singleton.mp member] at isHeld
  cases isHeld

theorem upholds_writeIndex
    (lawful : catalog.LawfulAs table row) {index : IndexDef}
    (declared : index ∈ table.indexes)
    (previous : Option Row) (verifyUnique : Bool) :
    Upholds (Catalog.KeepsLawful wellFormed)
      (writeIndex table row previous verifyUnique index) (fun _ => True) := by
  refine Upholds.andThen (Upholds.forEach (fun old _ => ?_))
    (fun _ => Upholds.forEach (fun new member => ?_))
  · split
    · exact Upholds.pure trivial
    · exact upholds_delete old.key
  · obtain ⟨record, isLawful, rfl, same⟩ := lawful
    have puts : Upholds (Catalog.KeepsLawful wellFormed)
        (put new.key new.value) (fun _ => True) := by
      rw [same.admittedEntries] at member
      exact upholds_put isLawful (.inr ⟨index, declared, new, member, rfl, rfl⟩)
    split
    · exact Upholds.pure trivial
    · split
      · exact Upholds.andThen (Upholds.reading (fun _ _ _ _ => trivial)) (fun _ => puts)
      · exact puts

theorem upholds_stamp
    (accepts : catalog.AcceptsStamps) (lawful : catalog.LawfulAs table row)
    (records : RecordTransaction) (previous : Option Row) :
    Upholds (Catalog.KeepsLawful wellFormed)
      (records.stamp table row previous) (catalog.LawfulAs table) := by
  intro state before
  rw [run_stamp]
  refine ⟨?_, fun stampedRow answered => ?_⟩
  · rw [Catalog.KeepsLawful, ticked_transaction]
    exact before
  · cases answered
    rw [stamped_eq_refilled]
    exact lawful.refilled accepts (records.stamps_stampsOf table previous _).fills

theorem upholds_writeRowWith
    (accepts : catalog.AcceptsStamps) (lawful : catalog.LawfulAs table row)
    (records : RecordTransaction) (previous : Option Row)
    (verifyUnique : Bool) :
    Upholds (Catalog.KeepsLawful wellFormed)
      (records.writeRowWith table row previous verifyUnique)
      (fun _ => True) := by
  refine Upholds.bind (upholds_stamp accepts lawful records previous)
    (fun stampedRow isLawful => Upholds.andThen (Upholds.forEach
    (fun index declared => upholds_writeIndex isLawful declared previous
    verifyUnique)) (fun _ => ?_))
  obtain ⟨record, lawfulRecord, rfl, same⟩ := isLawful
  exact upholds_put lawfulRecord
    (.inl ⟨same.rowKey record.table, same.encodeBody record.table⟩)

theorem upholds_eraseRow
    (table : TableDef) (row : Row) :
    Upholds (Catalog.KeepsLawful wellFormed) (eraseRow table row) (fun _ => True) :=
  Upholds.andThen (Upholds.forEach (fun _ _ =>
      Upholds.forEach (fun entry _ => upholds_delete entry.key)))
    (fun _ => upholds_delete _)

theorem upholds_removeRow
    (accepts : catalog.AcceptsStamps) (lawful : catalog.LawfulAs table row)
    (records : RecordTransaction) :
    Upholds (Catalog.KeepsLawful wellFormed) (records.removeRow table row)
      (fun _ => True) := by
  rw [removeRow]
  split
  · exact upholds_eraseRow table row
  · next column retires =>
      refine Upholds.andThen (fun _ before => ⟨before, fun _ _ => trivial⟩)
        (fun now => ?_)
      split
      · rw [retired_eq_refilled]
        exact upholds_writeRowWith accepts (lawful.refilled accepts
          (TableDef.fills_retiredStamp retires now)) records (some row) false
      · exact Upholds.lift (fun _ _ => trivial)

theorem lawfulAs_of_deletionClosure
    (isCatalog : records.catalog = catalog)
    {state : RecordState} (before : Catalog.KeepsLawful wellFormed state)
    (isRoot : catalog.LawfulAs table row) {doomed : List (TableDef × Row)}
    (closed : records.deletionClosure context table row state.transaction =
      .ok doomed) :
    ∀ pair ∈ doomed, catalog.LawfulAs pair.1 pair.2 := by
  refine deletionClosure_forall ?_ isRoot closed
  intro child foreignKey parentKey rows isChild found row member
  rw [isCatalog] at isChild
  obtain ⟨record, isLawful, isTable, isRead⟩ :=
    record_of_referencingRows before isChild found row member
  exact ⟨record, isLawful, isTable, isRead.same⟩

theorem upholds_removeRows
    (accepts : catalog.AcceptsStamps) (records : RecordTransaction)
    {doomed : List (TableDef × Row)}
    (lawful : ∀ pair ∈ doomed, catalog.LawfulAs pair.1 pair.2) :
    Upholds (Catalog.KeepsLawful wellFormed) (records.removeRows doomed)
      (fun _ => True) :=
  Upholds.forEach (fun pair member =>
    upholds_removeRow accepts (lawful pair member) records)

theorem lawfulAs_of_visibleRow
    {state : RecordState} (before : Catalog.KeepsLawful wellFormed state)
    (inCatalog : table ∈ catalog.tables)
    {action : Action} {primaryKey : List Value}
    (visible : records.visibleRow context table action primaryKey
      state.transaction = .ok (some row)) :
    catalog.LawfulAs table row := by
  obtain ⟨record, lawful, isTable, _, isRead⟩ := record_of_readRowUnchecked
    before inCatalog (readRowUnchecked_of_visibleRow visible)
  exact ⟨record, lawful, isTable, isRead.same⟩

theorem upholds_checked
    {α : Type} (accepts : catalog.AcceptsStamps)
    (inCatalog : table ∈ catalog.tables)
    (fits : row.Fits) {check : Snapshot → Except KernelError α}
    (checks : ∀ snapshot value, check snapshot = .ok value → row.Satisfies table)
    (records : RecordTransaction) (previous : α → Option Row) :
    Upholds (Catalog.KeepsLawful wellFormed) (reading check >>= fun value =>
        records.writeRow table row (previous value)) (fun _ => True) := by
  have lawful : Upholds (Catalog.KeepsLawful wellFormed)
      (reading check) (fun _ => catalog.LawfulAs table row) := by
    refine Upholds.reading (fun state _ value passed => ?_)
    exact .of_satisfies inCatalog (checks _ _ passed) fits
  exact Upholds.bind lawful (fun value isLawful =>
    upholds_writeRowWith accepts isLawful records (previous value) true)

theorem upholds_writeMany
    (accepts : catalog.AcceptsStamps)
    (inCatalog : table ∈ catalog.tables)
    {rows : List Row}
    (fits : ∀ row ∈ rows, row.Fits)
    (records : RecordTransaction) (context : SecurityContext)
    (mode : BulkMode) :
    Upholds (Catalog.KeepsLawful wellFormed)
      (records.writeMany context table rows mode) (fun _ => True) := by
  rw [writeMany]
  split
  · exact Upholds.pure trivial
  · have lawful : Upholds (Catalog.KeepsLawful wellFormed)
        (reading (records.checkMany context table rows mode))
        (fun _ => ∀ row ∈ rows, catalog.LawfulAs table row) := by
      refine Upholds.reading (fun state _ existing passed row member => ?_)
      exact .of_satisfies inCatalog
        (satisfies_of_checkMany passed row member) (fits row member)
    refine Upholds.bind lawful (fun existing areLawful =>
      Upholds.forEach (fun pair member => ?_))
    exact upholds_writeRowWith accepts
      (areLawful pair.1 (of_mem_zip member).1) records pair.2 false

end RecordTransaction

/-! ## Operations -/

section

open Write

variable
  {records : RecordTransaction}
  {wellFormed : records.catalog.WellFormed}
  {table : TableDef}

theorem KeyedWrite.upholds
    (accepts : records.catalog.AcceptsStamps)
    (inCatalog : table ∈ records.catalog.tables)
    {write : KeyedWrite}
    (fits : ∀ row ∈ write.rows, row.Fits)
    (context : SecurityContext) :
    Upholds (Catalog.KeepsLawful wellFormed)
      (write.operation records context table) (fun _ => True) := by
  cases write with
  | insert row =>
      exact upholds_checked accepts inCatalog (fits row (mem_singleton.mpr rfl))
        (fun _ _ => satisfies_of_checkInsert) records (fun _ => none)
  | update row =>
      exact upholds_checked accepts inCatalog (fits row (mem_singleton.mpr rfl))
        (fun _ _ => satisfies_of_checkUpdate) records some
  | upsert row =>
      exact upholds_checked accepts inCatalog (fits row (mem_singleton.mpr rfl))
        (fun _ _ => satisfies_of_checkUpsert) records id
  | updateIfUnchanged row expected =>
      exact upholds_checked accepts inCatalog (fits row (mem_singleton.mpr rfl))
        (fun _ _ => satisfies_of_checkUpdateIfUnchanged) records some
  | insertMany rows
  | upsertMany rows
  | updateMany rows => exact upholds_writeMany accepts inCatalog fits records context _

theorem RecordTransaction.upholds_deleteMatched
    (accepts : records.catalog.AcceptsStamps) {row : Row}
    (lawful : records.catalog.LawfulAs table row) (context : SecurityContext) :
    Upholds (Catalog.KeepsLawful wellFormed)
      (records.deleteMatched context table row) (fun _ => True) := by
  have closed : Upholds (Catalog.KeepsLawful wellFormed)
      (reading (records.deletionClosure context table row))
      (fun doomed => ∀ pair ∈ doomed, records.catalog.LawfulAs pair.1 pair.2) :=
    Upholds.reading (fun _ before _ => lawfulAs_of_deletionClosure rfl before lawful)
  exact Upholds.bind closed (fun _ areLawful => Upholds.andThen
    (upholds_removeRows accepts records areLawful) (fun _ => Upholds.pure trivial))

theorem RecordTransaction.upholds_updateMatched
    (accepts : records.catalog.AcceptsStamps)
    (inCatalog : table ∈ records.catalog.tables)
    {assignments : List (Ordinal × Scalar)}
    (fit : ∀ assignment ∈ assignments, assignment.2.Fits)
    (fits : existing.Fits) (context : SecurityContext) :
    Upholds (Catalog.KeepsLawful wellFormed)
      (records.updateMatched context table assignments existing)
      (fun _ => True) := by
  have checked : Upholds (Catalog.KeepsLawful wellFormed)
      (reading (records.checkMatched context table
        (assigned assignments existing) existing))
      (fun _ => records.catalog.LawfulAs table (assigned assignments existing)) := by
    refine Upholds.reading (fun _ _ _ passed => ?_)
    exact .of_satisfies inCatalog (satisfies_of_checkMatched passed)
      (fits_assigned fit fits)
  exact Upholds.bind checked (fun _ lawful => Upholds.andThen
    (upholds_writeRowWith accepts lawful records (some existing) true)
    (fun _ => Upholds.pure trivial))

/-- A write by a predicate works on lawful rows. -/
theorem PredicateWrite.upholds
    (accepts : records.catalog.AcceptsStamps)
    (inCatalog : table ∈ records.catalog.tables)
    {write : PredicateWrite} {atMost : Option Nat}
    (fits : (RecordWrite.predicate write atMost).Fits)
    (context : SecurityContext) :
    Upholds (Catalog.KeepsLawful wellFormed)
      (write.operation records context table atMost) (fun _ => True) := by
  cases write with
  | deleteWhere filter =>
      have matched : Upholds (Catalog.KeepsLawful wellFormed)
          (reading (records.checkDeleteWhere context table filter atMost))
          (fun rows => ∀ row ∈ rows, records.catalog.LawfulAs table row) := by
        refine Upholds.reading (fun _ before rows passed => ?_)
        obtain ⟨_, _, found⟩ := bind_eq_ok.mp passed
        intro row member
        obtain ⟨record, isLawful, isTable, isRead⟩ :=
          record_of_matchingRows before inCatalog found row member
        exact ⟨record, isLawful, isTable, isRead.same⟩
      exact Upholds.bind matched (fun rows areLawful =>
        Upholds.collect (fun row member =>
          upholds_deleteMatched accepts (areLawful row member) context))
  | updateWhere filter assignments =>
      have matched : Upholds (Catalog.KeepsLawful wellFormed)
          (reading (records.checkUpdateWhere context table filter
            assignments atMost))
          (fun rows => ∀ row ∈ rows, row.Fits) := by
        refine Upholds.reading (fun _ before rows passed => ?_)
        replace passed := ok_of_bind passed
        replace passed := ok_of_bind passed
        split at passed
        · cases passed
          exact fun row member => absurd member not_mem_nil
        · obtain ⟨_, _, found⟩ := bind_eq_ok.mp passed
          intro row member
          obtain ⟨record, _, _, isRead⟩ :=
            record_of_matchingRows before inCatalog found row member
          exact isRead.same.fits record.fits
      exact Upholds.bind matched (fun rows areFitting => Upholds.collect
        (fun row member => upholds_updateMatched accepts inCatalog fits
        (areFitting row member) context))

/-- Every write of a record transaction keeps a store lawful. -/
theorem RecordWrite.upholds
    (accepts : records.catalog.AcceptsStamps)
    (inCatalog : table ∈ records.catalog.tables)
    {write : RecordWrite} (fits : write.Fits) (context : SecurityContext) :
    Upholds (Catalog.KeepsLawful wellFormed)
      (write.operation records context table) (fun _ => True) := by
  cases write with
  | keyed write => exact KeyedWrite.upholds accepts inCatalog fits context
  | predicate write atMost =>
      exact Upholds.andThen (PredicateWrite.upholds accepts inCatalog fits
        context) (fun _ => Upholds.pure trivial)
  | delete primaryKey =>
      have closed : Upholds (Catalog.KeepsLawful wellFormed)
          (reading (records.checkDelete context table primaryKey))
          (fun found => ∀ doomed, found = some doomed →
            ∀ pair ∈ doomed, records.catalog.LawfulAs pair.1 pair.2) := by
        refine Upholds.reading (fun _ before found checked => ?_)
        intro doomed isFound
        subst isFound
        replace checked := ok_of_bind checked
        obtain ⟨existing, visible, checked⟩ := bind_eq_ok.mp checked
        cases existing with
        | none => cases checked
        | some row =>
            obtain ⟨rows, closed, checked⟩ := bind_eq_ok.mp checked
            cases checked
            exact lawfulAs_of_deletionClosure rfl before
              (lawfulAs_of_visibleRow before inCatalog visible) closed
      refine Upholds.andThen (Upholds.bind closed (fun found areLawful => ?_))
        (fun _ => Upholds.pure trivial)
      cases found with
      | none => exact Upholds.pure trivial
      | some doomed =>
          exact Upholds.andThen (upholds_removeRows accepts records
            (areLawful doomed rfl)) (fun _ => Upholds.pure trivial)
  | deleteIfUnchanged primaryKey expected =>
      have closed : Upholds (Catalog.KeepsLawful wellFormed)
          (reading (records.checkDeleteIfUnchanged context table
            primaryKey expected))
          (fun doomed => ∀ pair ∈ doomed, records.catalog.LawfulAs pair.1 pair.2) := by
        refine Upholds.reading (fun _ before doomed checked => ?_)
        obtain ⟨_, row, visible, _, closed⟩ := checkDeleteIfUnchanged_spec checked
        exact lawfulAs_of_deletionClosure rfl before
          (lawfulAs_of_visibleRow before inCatalog visible) closed
      exact Upholds.bind closed (fun _ areLawful =>
        upholds_removeRows accepts records areLawful)
  | purgeDeleted instant atMost =>
      refine Upholds.andThen ?_ (fun _ => Upholds.pure trivial)
      rw [RecordTransaction.purgeDeleted]
      split
      · exact Upholds.lift (fun _ _ => trivial)
      · exact Upholds.andThen (Upholds.lift (fun _ _ => trivial))
          (fun _ => Upholds.andThen (Upholds.reading (fun _ _ _ _ => trivial))
          (fun _ => Upholds.andThen (Upholds.forEach (fun row _ => upholds_eraseRow
          table row)) (fun _ => Upholds.pure trivial)))

end

/-! ## Runs -/

namespace Call

/-- Every row that a call supplies, or can supply, can be kept in full. -/
def Fits : Call → Prop
  | write _ _ _ asked => asked.Fits
  | commit => True

end Call

/-- Every row of a store meets the constraints of its table. -/
structure RowsSatisfy (catalog : Catalog) (snapshot : Snapshot) : Prop where
  /-- What a table's range holds is a row that meets its constraints. -/
  stored : ∀ table ∈ catalog.tables, ∀ key body,
    Keys.tablePrefix table <+: key → snapshot.get key = some body →
      ∃ row : Row, row.Satisfies table ∧ row.Fits ∧
        key = Keys.rowKey table (row.primaryKeyValues table) ∧
        body = encodeBody table row
  /-- No constraint is false of a row that is read. -/
  read : ∀ table ∈ catalog.tables, ∀ primaryKey row,
    readRowUnchecked snapshot table primaryKey = .ok (some row) →
      ∀ check ∈ table.checks, check.satisfiedBy row = true

namespace Catalog.KeepsLawful

variable {state after : RecordState}

theorem satisfiedBy_of_lawfulAs
    {table : TableDef} {row : Row} (lawful : catalog.LawfulAs table row) :
    ∀ check ∈ table.checks, check.satisfiedBy row = true := by
  obtain ⟨record, isLawful, rfl, same⟩ := lawful
  intro check member
  rw [CheckDef.satisfiedBy, same.truth]
  exact isLawful check member

theorem rowsSatisfy
    (lawful : KeepsLawful wellFormed state) :
    RowsSatisfy catalog state.transaction := by
  refine ⟨?_, ?_⟩
  · intro table inCatalog key body begins found
    obtain ⟨record, isLawful, rfl, rfl, rfl⟩ :=
      exists_record_of_tablePrefix lawful inCatalog begins found
    exact ⟨record.row, ⟨record.valid, isLawful⟩, record.fits, rfl, rfl⟩
  · intro table inCatalog primaryKey row read
    obtain ⟨record, isLawful, isTable, _, isRead⟩ :=
      record_of_readRowUnchecked lawful inCatalog read
    exact satisfiedBy_of_lawfulAs ⟨record, isLawful, isTable, isRead.same⟩

theorem of_empty : KeepsLawful wellFormed (.begin ∅) := by
  intro key value found
  rw [view] at found
  split at found
  · rw [RecordState.get_begin, Std.ExtTreeMap.getElem?_empty] at found
    cases found
  · cases found

theorem call
    (accepts : catalog.AcceptsStamps) {call : Call}
    (onCatalog : call.On catalog) (fits : call.Fits)
    (before : KeepsLawful wellFormed state)
    (stepped : call.step state = some after) :
    KeepsLawful wellFormed after := by
  cases call with
  | write records context table write =>
      obtain ⟨rfl, inCatalog⟩ := onCatalog
      have kept := (RecordWrite.upholds accepts inCatalog fits context state before).1
      rw [Call.step] at stepped
      split at stepped
      · next ran =>
          cases stepped
          rw [ran] at kept
          exact kept
      · cases stepped
  | commit =>
      have same : after.transaction.get = state.transaction.get :=
        funext (Call.get_commit stepped)
      rw [KeepsLawful, same]
      exact before

end Catalog.KeepsLawful

/--
Whatever a caller does from an empty store, while timestamps cannot break what
was checked and every row can be kept in full, every stored row meets the
constraints of its table.
-/
theorem rowsSatisfy_of_calls
    {tables : List TableDef}
    (built : ∀ table ∈ tables, ∃ builder : TableBuilder, builder.build = .ok table)
    {catalog : Catalog}
    (made : Catalog.fromTables tables = .ok catalog)
    (accepts : catalog.AcceptsStamps) {calls : List Call}
    (onCatalog : ∀ call ∈ calls, call.On catalog)
    (fits : ∀ call ∈ calls, call.Fits)
    {state : RecordState} (run : LabelledRun Call.step (.begin ∅) calls state) :
    RowsSatisfy catalog state.transaction := by
  have wellFormed := Catalog.wellFormed_of_fromTables built made
  have lawful : Catalog.KeepsLawful wellFormed state := by
    refine run.invariant_of_labels (Catalog.KeepsLawful wellFormed) ?_
      Catalog.KeepsLawful.of_empty
    intro call member before after stepped lawfulBefore
    exact lawfulBefore.call accepts (onCatalog call member) (fits call member) stepped
  exact lawful.rowsSatisfy

/-! ## Constraints that read no column of the store's own -/

omit [Platform] in
theorem checkValue_stamp
    {table : TableDef}
    (wellFormed : table.WellFormed)
    {ordinal : Ordinal}
    (isFilled : table.isFilled ordinal = true)
    {column : ColumnDef}
    (found : table.column ordinal = some column)
    (live : column.isDropped = false)
    (stamp : Int64) :
    checkValue table.name column (.i64 stamp) = .ok () := by
  have isTimestamp : column.type = .i64 := by
    rw [TableDef.isFilled, Bool.or_eq_true] at isFilled
    rcases isFilled with retires | isStamped
    · obtain ⟨retiring, isRetiring, retires⟩ :=
        wellFormed.softDelete ordinal (beq_iff_eq.mp retires)
      rw [isRetiring] at found
      cases found
      exact retires.type
    · rw [TableDef.isStamped, found, Option.any_some] at isStamped
      exact (wellFormed.managed column (mem_of_getElem? found) isStamped).1
  have notArray : column.elementType = none := by
    rw [ColumnDef.elementType, isTimestamp, if_neg (by decide)]
  simp only [checkValue, live, Bool.false_eq_true, if_false, Value.valueType,
    isTimestamp, ne_eq, not_true_eq_false, notArray]

/-- A valid row stays valid with timestamps in live columns. -/
theorem validate_refilled
    {table : TableDef}
    (wellFormed : table.WellFormed)
    (live : ∀ ordinal column, table.isFilled ordinal = true →
      table.column ordinal = some column → column.isDropped = false)
    (columnsOnly : ∀ index ∈ table.indexes, index.expression = none)
    {row : Row}
    (valid : row.validate table = .ok ())
    {stamps : Ordinal → Option Int64} (fills : table.Fills stamps) :
    (row.refilled stamps).validate table = .ok () := by
  have width := Row.width_of_validate valid
  rw [Row.validate, if_neg (not_not.mpr width)] at valid
  obtain ⟨_, checked, _⟩ := bind_eq_ok.mp valid
  have width' : (row.refilled stamps).values.length =
      table.columns.length := by
    rw [Row.length_refilled, width]
  rw [Row.validate, if_neg (not_not.mpr width')]
  refine bind_eq_ok.mpr ⟨(), checkEach_of_forall ?_, checkEach_of_forall ?_⟩
  · intro pair member
    obtain ⟨ordinal, inZip, isPair⟩ := mem_iff_getElem.mp member
    rw [length_zip, width', Nat.min_self] at inZip
    have inRow : ordinal < row.values.length := width ▸ inZip
    have inRefilled : ordinal < (row.refilled stamps).values.length := width' ▸ inZip
    rw [getElem_zip] at isPair
    subst isPair
    have isValue : (row.refilled stamps).values[ordinal] =
        Row.orStamp row.values[ordinal] (stamps ordinal) := by
      have filled := row.get_refilled stamps ordinal
      rw [Row.get, Row.get, getElem?_eq_getElem inRefilled,
        getElem?_eq_getElem inRow] at filled
      exact Option.some.inj filled
    dsimp only
    rw [isValue]
    cases stamp : stamps ordinal with
    | some instant =>
        have isFilled := fills ordinal (by rw [stamp]; rfl)
        have found : table.column ordinal = some table.columns[ordinal] :=
          getElem?_eq_getElem inZip
        exact checkValue_stamp wellFormed isFilled found
          (live ordinal _ isFilled found) instant
    | none =>
        refine checkEach_eq_ok checked (table.columns[ordinal],
          row.values[ordinal]) (mem_iff_getElem.mpr ⟨ordinal, ?_, ?_⟩)
        · rw [length_zip, width, Nat.min_self]
          exact inZip
        · rw [getElem_zip]
  · intro index declared
    rw [checkExpression, columnsOnly index declared]

/--
Timestamps break no constraint where those are expressions that read other
columns, no index computes its keys, and the columns are live.
-/
theorem TableDef.acceptsStamps_of_unread
    {table : TableDef}
    (wellFormed : table.WellFormed)
    (live : ∀ ordinal column, table.isFilled ordinal = true →
      table.column ordinal = some column → column.isDropped = false)
    (columnsOnly : ∀ index ∈ table.indexes, index.expression = none)
    (unread : ∀ check ∈ table.checks, ∃ expression, check.predicate = .expr expression ∧
        ∀ column ∈ expression.columns, table.isFilled column = false) :
    table.AcceptsStamps := by
  intro row stamps fills satisfies
  refine ⟨validate_refilled wellFormed live columnsOnly satisfies.valid fills,
    fun check member => ?_⟩
  obtain ⟨expression, isExpression, reads⟩ := unread check member
  have same : expression.evaluateOver (row.refilled stamps).get =
      expression.evaluateOver row.get := by
    refine expression.evaluateOver_of_columns (fun column inColumns => ?_)
    refine Row.get_refilled_of_none ?_
    cases stamp : stamps column with
    | none => rfl
    | some _ =>
        have isFilled := fills column (by rw [stamp]; rfl)
        rw [reads column inColumns] at isFilled
        cases isFilled
  have satisfied := satisfies.checks check member
  rw [CheckDef.satisfiedBy, isExpression, Predicate.truth] at satisfied ⊢
  simp only [Expr.evaluate, same] at satisfied ⊢
  exact satisfied

end

/-! ## Ratings -/

section

local instance ratingsPlatform : Platform := asciiPlatform

/-- A table of ratings, which have stars and are retired when deleted. -/
def ratingsBuilder : TableBuilder where
  id := 1
  name := "ratings"
  columns := [
    { name := "id", type := .i64 },
    { name := "stars", type := .i64 },
    { name := "changed_at", type := .i64, managed := some .updatedAt },
    { name := "retired_at", type := .i64, nullable := true }]
  primaryKey := ["id"]
  checks := [⟨"some_stars", .expr (.compare 1 .gt (.i64 0)), none, none⟩]
  softDelete := some "retired_at"

/-- The table that the builder makes. -/
def ratings : TableDef where
  id := 1
  name := "ratings"
  columns := ratingsBuilder.columns.map ColumnSpec.toColumn
  primaryKey := [0]
  bodyColumns := [1, 2, 3]
  storedColumns := [1, 2, 3]
  indexes := []
  checks := ratingsBuilder.checks
  foreignKeys := []
  tenantColumn := none
  softDelete := some 3
  schemaVersion := 0

/-- Two ratings are made, both lose their stars, and one is deleted. -/
def ratingCalls : List Call := [.write (.plain ⟨[ratings]⟩) .superuser ratings
      (.keyed (.insertMany [⟨[.i64 1, .i64 3, .i64 0, .null]⟩,
          ⟨[.i64 2, .i64 4, .i64 0, .null]⟩])),
    .write (.plain ⟨[ratings]⟩) .superuser ratings
      (.predicate (.updateWhere .true [(1, .literal (.i64 1))]) none),
    .commit,
    .write (.plain ⟨[ratings]⟩) .superuser ratings (.delete [.i64 2])]

theorem built_ratings :
    ∀ table ∈ [ratings], ∃ builder : TableBuilder, builder.build = .ok table := by
  intro table member
  rw [mem_singleton.mp member]
  exact ⟨ratingsBuilder, rfl⟩

theorem acceptsStamps_ratings : Catalog.AcceptsStamps ⟨[ratings]⟩ := by
  intro table member
  rw [mem_singleton.mp member]
  have wellFormed : ratings.WellFormed :=
    TableBuilder.build_wellFormed (show ratingsBuilder.build = .ok ratings from rfl)
  have allLive : ∀ column ∈ ratings.columns, column.isDropped = false := by
    decide
  refine TableDef.acceptsStamps_of_unread wellFormed ?_ ?_ ?_
  · intro ordinal column _ found
    exact allLive column (mem_of_getElem? found)
  · intro index declared
    cases declared
  · intro check declared
    rw [mem_singleton.mp declared]
    refine ⟨_, rfl, ?_⟩
    decide

/-- The ratings keep to their constraint, retired or not. -/
theorem rowsSatisfy_ratings :
    ∃ state, LabelledRun Call.step (.begin ∅) ratingCalls state ∧
      RowsSatisfy ⟨[ratings]⟩ state.transaction := by
  have made : Catalog.fromTables [ratings] = .ok ⟨[ratings]⟩ := rfl
  have onCatalog : ∀ call ∈ ratingCalls, call.On ⟨[ratings]⟩ := by
    simp [ratingCalls, Call.On, plain]
  have fits : ∀ call ∈ ratingCalls, call.Fits := by
    simp [ratingCalls, Call.Fits, RecordWrite.Fits, KeyedWrite.rows,
      Scalar.Fits, Scalar.evaluate, Row.Fits, Value.fits]
  have taken : (ratingCalls.foldlM Call.step (.begin ∅)).isSome = true := by
    decide
  have run : LabelledRun Call.step (.begin ∅) ratingCalls
      ((ratingCalls.foldlM Call.step (.begin ∅)).get taken) :=
    .of_foldlM (Option.eq_some_of_isSome _)
  exact ⟨_, run, rowsSatisfy_of_calls built_ratings made
    acceptsStamps_ratings onCatalog fits run⟩

/-! ## Notices that are retired too early -/

/-- A table of notices, none of which is retired before its time. -/
def noticesBuilder : TableBuilder where
  id := 1
  name := "notices"
  columns := [
    { name := "id", type := .i64 },
    { name := "retired_at", type := .i64, nullable := true }]
  primaryKey := ["id"]
  checks := [⟨"retired_later", .expr (.compare 1 .gt (.i64 100)), none, none⟩]
  softDelete := some "retired_at"

/-- The table that the builder makes. -/
def notices : TableDef where
  id := 1
  name := "notices"
  columns := noticesBuilder.columns.map ColumnSpec.toColumn
  primaryKey := [0]
  bodyColumns := [1]
  storedColumns := [1]
  indexes := []
  checks := noticesBuilder.checks
  foreignKeys := []
  tenantColumn := none
  softDelete := some 1
  schemaVersion := 0

/-- A notice is made and deleted. -/
def noticeCalls : List Call := [.write (.plain ⟨[notices]⟩) .superuser notices
      (.keyed (.insert ⟨[.i64 1, .null]⟩)),
    .write (.plain ⟨[notices]⟩) .superuser notices (.delete [.i64 1])]

theorem built_notices :
    ∀ table ∈ [notices], ∃ builder : TableBuilder, builder.build = .ok table := by
  intro table member
  rw [mem_singleton.mp member]
  exact ⟨noticesBuilder, rfl⟩

/-- Whether a notice that is read breaks a constraint. -/
def breaksNotice (state : RecordState) : Bool :=
  match readRowUnchecked state.transaction notices [.i64 1] with
  | .ok (some row) => !notices.checks.all (fun check => check.satisfiedBy row)
  | _ => false

theorem not_rowsSatisfy_of_breaksNotice
    {state : RecordState}
    (breaks : breaksNotice state = true) :
    ¬RowsSatisfy ⟨[notices]⟩ state.transaction := by
  intro satisfied
  rw [breaksNotice] at breaks
  split at breaks
  · next row read =>
      have holds : notices.checks.all (fun check => check.satisfiedBy row) = true :=
        all_eq_true.mpr (satisfied.read notices
          (mem_singleton.mpr rfl) [.i64 1] row read)
      rw [holds] at breaks
      cases breaks
  · cases breaks

end

/--
A deletion writes its timestamp into a row after the constraints were checked,
and nothing checks the row that is stored.
-/
theorem not_rowsSatisfy_retired :
    ¬∀ (_ : Platform) (tables : List TableDef), (∀ table ∈ tables,
        ∃ builder : TableBuilder, builder.build = .ok table) →
      ∀ catalog, Catalog.fromTables tables = .ok catalog →
        ∀ calls : List Call, (∀ call ∈ calls, call.On catalog) →
          ∀ state, LabelledRun Call.step (.begin ∅) calls state →
            RowsSatisfy catalog state.transaction := by
  intro always
  let _ : Platform := asciiPlatform
  have onCatalog : ∀ call ∈ noticeCalls, call.On ⟨[notices]⟩ := by
    simp [noticeCalls, Call.On, plain]
  have breaks : breaksNotice ((noticeCalls.foldlM Call.step (.begin ∅)).get
      (by decide)) = true := by
    decide
  have run : LabelledRun Call.step (.begin ∅) noticeCalls
      ((noticeCalls.foldlM Call.step (.begin ∅)).get (by decide)) :=
    .of_foldlM (Option.eq_some_of_isSome _)
  exact not_rowsSatisfy_of_breaksNotice breaks (always asciiPlatform [notices]
    built_notices ⟨[notices]⟩ rfl noticeCalls onCatalog _ run)

end SlateOrm
