import SlateOrm.IndexConsistency

namespace SlateOrm

open List RecordTransaction Write RecordState

/-!
# Writes that are not disturbed

A write can leave a store inconsistent in few ways only: it retires a row into a
unique slot of another row, a batch takes slots that its timestamps decide, a
predicate write meets a row that is no longer what it collected or gives a row
another primary key, or a purge works on rows of which it sees a part.  A write
that avoids them keeps exactly the rows and their entries.
-/

variable [Platform]

/-! ## What writes are given -/

/-- The rows that a write is given to be stored. -/
def KeyedWrite.rows : KeyedWrite → List Row
  | insert row => [row]
  | update row => [row]
  | upsert row => [row]
  | updateIfUnchanged row _ => [row]
  | insertMany rows => rows
  | upsertMany rows => rows
  | updateMany rows => rows

namespace RecordWrite

/-- The rows that a write is given to be stored. -/
def rows : RecordWrite → List Row
  | keyed write => write.rows
  | _ => []

/-- A write that names the rows it is about by their primary keys. -/
def Named : RecordWrite → Prop
  | keyed _ => True
  | delete _ => True
  | deleteIfUnchanged _ _ => True
  | _ => False

end RecordWrite

/-- No table has columns that the store fills in by itself. -/
def Catalog.Unmanaged (catalog : Catalog) : Prop := ∀ table ∈ catalog.tables,
    table.isManaged = false ∧ table.softDelete = none

/-- An assignment whose result can be kept in full for rows that can be. -/
def Scalar.Fits (scalar : Scalar) : Prop :=
  ∀ row : Row, row.Fits → (scalar.evaluate row.get).fits = true

variable {assignments : List (Ordinal × Scalar)}

theorem RecordTransaction.fits_assigned
    (fit : ∀ assignment ∈ assignments, assignment.2.Fits)
    {existing : Row} (fits : existing.Fits) :
    (assigned assignments existing).Fits := by
  have each : ∀ values : List Value, (∀ value ∈ values, value.fits = true) →
      ∀ value ∈ assignments.foldl (fun values assignment =>
        values.set assignment.1 (assignment.2.evaluate existing.get)) values,
        value.fits = true := by
    induction assignments with
    | nil => exact fun _ fitting => fitting
    | cons assignment rest ih =>
        intro values fitting
        refine ih (fun other member =>
          fit other (mem_cons_of_mem _ member)) _ (fun value member => ?_)
        rcases mem_or_eq_of_mem_set member with older | rfl
        · exact fitting value older
        · exact fit assignment (mem_cons_self ..) existing fits
  exact each existing.values fits

/-- Every row that a write supplies, or can supply, can be kept in full. -/
def RecordWrite.Fits : RecordWrite → Prop
  | keyed write => ∀ row ∈ write.rows, row.Fits
  | predicate (.updateWhere _ assignments) _ =>
      ∀ assignment ∈ assignments, assignment.2.Fits
  | _ => True

/-- A write of many rows at once. -/
def KeyedWrite.Bulk : KeyedWrite → Prop
  | insertMany _ => True
  | upsertMany _ => True
  | updateMany _ => True
  | _ => False

/-! ## What disturbs a write -/

namespace RecordTransaction

/-- A row that reads back as it is. -/
def Stands (snapshot : Snapshot) (table : TableDef) (row : Row) : Prop :=
  ∃ stored, readRowUnchecked snapshot table (row.primaryKeyValues table) =
      .ok (some stored) ∧ stored.Same row

/--
Each row that a deletion has collected still stands when its turn comes, and
what is retired with it finds its unique slots free.
-/
def DeletionsUndisturbed (records : RecordTransaction)
    (context : SecurityContext) (table : TableDef) :
    List Row → RecordState → Prop
  | [], _ => True
  | row :: rest, state =>
      Stands state.transaction table row ∧
        ∀ doomed, records.deletionClosure context table row
            state.transaction = .ok doomed →
          records.RemovalsFree doomed state ∧
            records.DeletionsUndisturbed context table rest
              (records.removals state doomed).2

/-- Each row that an update has collected still stands when its turn comes. -/
def UpdatesUndisturbed (records : RecordTransaction)
    (context : SecurityContext) (table : TableDef)
    (assignments : List (Ordinal × Scalar)) :
    List Row → RecordState → Prop
  | [], _ => True
  | row :: rest, state =>
      Stands state.transaction table row ∧ ∀ written after,
          (records.updateMatched context table assignments row).run state =
            (.ok written, after) →
          records.UpdatesUndisturbed context table assignments rest after

end RecordTransaction

/-- What keeps a write from leaving a store inconsistent. -/
def RecordWrite.Undisturbed (records : RecordTransaction)
    (context : SecurityContext) (table : TableDef) (state : RecordState) :
    RecordWrite → Prop
  | keyed write => (∀ row ∈ write.rows, row.Fits) ∧ (write.Bulk → table.SlotsUnstamped)
  | predicate (.deleteWhere filter) atMost =>
      ∀ rows, records.checkDeleteWhere context table filter atMost
          state.transaction = .ok rows →
        records.DeletionsUndisturbed context table rows state
  | predicate (.updateWhere filter assignments) atMost =>
      (∀ assignment ∈ assignments,
        assignment.2.Fits ∧ assignment.1 ∉ table.primaryKey) ∧
        ∀ rows, records.checkUpdateWhere context table filter assignments
            atMost state.transaction = .ok rows →
          records.UpdatesUndisturbed context table assignments rows state
  | delete primaryKey =>
      ∀ doomed, records.checkDelete context table primaryKey
          state.transaction = .ok (some doomed) →
        records.RemovalsFree doomed state
  | deleteIfUnchanged primaryKey expected =>
      ∀ doomed, records.checkDeleteIfUnchanged context table primaryKey
          expected state.transaction = .ok doomed →
        records.RemovalsFree doomed state
  | purgeDeleted _ _ => records.security.readable context table = none

/-! ## What such writes keep -/

section

variable
  {records : RecordTransaction}
  {wellFormed : records.catalog.WellFormed}
  {context : SecurityContext}
  {table : TableDef}

variable {state after : RecordState}

namespace RecordTransaction

theorem storedAs_of_stands
    (inCatalog : table ∈ records.catalog.tables)
    (keeps : Catalog.Keeps wellFormed state) {row : Row}
    (stands : Stands state.transaction table row) :
    StoredAs wellFormed (records.catalog.view state.transaction.get) table
      row := by
  obtain ⟨stored, read, same⟩ := stands
  obtain ⟨record, isStored, isTable, _, isRead⟩ :=
    record_of_readRowUnchecked keeps.comprises inCatalog read
  exact ⟨record, isStored, isTable, same.symm.trans isRead.same⟩

variable {rows : List Row}

/-- A deletion by predicate keeps the rows it does not take. -/
theorem keeps_collect_deleteMatched
    (staysValid : ∀ table ∈ records.catalog.tables, table.StaysValid)
    (inCatalog : table ∈ records.catalog.tables)
    {deleted : List Row} (keeps : Catalog.Keeps wellFormed state)
    (undisturbed : records.DeletionsUndisturbed context table rows state)
    (ran : (collect (records.deleteMatched context table) rows).run
      state = (.ok deleted, after)) :
    Catalog.Keeps wellFormed after := by
  induction rows generalizing state deleted with
  | nil =>
      cases ran
      exact keeps
  | cons row rest ih =>
      obtain ⟨stands, disturbs⟩ := undisturbed
      obtain ⟨_, between, first, ran⟩ := run_bind_eq_ok.mp ran
      obtain ⟨others, _, ranRest, isAfter⟩ := run_bind_eq_ok.mp ran
      cases isAfter
      obtain ⟨doomed, closed, first⟩ := run_reading_bind_eq_ok.mp first
      obtain ⟨_, _, removed, isBetween⟩ := run_bind_eq_ok.mp first
      cases isBetween
      obtain ⟨free, undisturbedRest⟩ := disturbs doomed closed
      have isStored := storedAs_of_stands inCatalog keeps stands
      have kept := keeps_deletion rfl staysValid keeps isStored closed free removed
      have retirable : ∀ pair ∈ doomed, Retirable pair.1 pair.2 := by
        refine deletionClosure_forall ?_ (retirable_of_storedAs isStored) closed
        intro child foreignKey parentKey found isChild read row member
        exact retirable_of_length (wellFormed.tables child isChild)
          (length_of_referencingRows read row member)
      rw [(run_removeRows retirable records state).1] at removed
      cases removed
      exact ih kept undisturbedRest ranRest

theorem primaryKeyValues_assigned
    (outside : ∀ assignment ∈ assignments, assignment.1 ∉ table.primaryKey)
    (existing : Row) :
    (assigned assignments existing).primaryKeyValues table =
      existing.primaryKeyValues table := by
  refine map_congr_left (fun ordinal inKey => ?_)
  have notAssigned : ∀ assignment ∈ assignments, assignment.1 ≠ ordinal := by
    rintro assignment member rfl
    exact outside assignment member inKey
  have untouched := getElem?_foldl_set_of_notMem Prod.fst
    (fun assignment : Ordinal × Scalar =>
      assignment.2.evaluate existing.get) notAssigned existing.values
  rw [Row.valueOrNull, Row.valueOrNull, Row.get, Row.get]
  exact congrArg (Option.getD · Value.null) untouched

/-- An update by predicate keeps the rows it does not change. -/
theorem keeps_collect_updateMatched
    (staysValid : table.StaysValid)
    (inCatalog : table ∈ records.catalog.tables)
    (fit : ∀ assignment ∈ assignments, assignment.2.Fits)
    (outside : ∀ assignment ∈ assignments, assignment.1 ∉ table.primaryKey)
    {updated : List Row} (keeps : Catalog.Keeps wellFormed state)
    (undisturbed : records.UpdatesUndisturbed context table assignments rows state)
    (ran : (collect (records.updateMatched context table assignments)
      rows).run state = (.ok updated, after)) :
    Catalog.Keeps wellFormed after := by
  induction rows generalizing state updated with
  | nil =>
      cases ran
      exact keeps
  | cons row rest ih =>
      obtain ⟨stands, disturbs⟩ := undisturbed
      obtain ⟨_, between, first, ran⟩ := run_bind_eq_ok.mp ran
      obtain ⟨others, _, ranRest, isAfter⟩ := run_bind_eq_ok.mp ran
      cases isAfter
      have undisturbedRest := disturbs _ _ first
      obtain ⟨_, checked, first⟩ := run_reading_bind_eq_ok.mp first
      obtain ⟨_, _, written, isBetween⟩ := run_bind_eq_ok.mp first
      cases isBetween
      obtain ⟨_, valid, _⟩ := bind_eq_ok.mp checked
      obtain ⟨record, isStored, isTable, same⟩ :=
        storedAs_of_stands inCatalog keeps stands
      have home : record.key =
          Keys.rowKey table ((assigned assignments row).primaryKeyValues table) := by
        rw [primaryKeyValues_assigned outside, CatalogRow.key, isTable]
        exact (same.rowKey table).symm
      refine ih ?_ undisturbedRest ranRest
      refine keeps_writeRow inCatalog staysValid (liftSchema_eq_ok.mp valid)
        (fits_assigned fit (same.fits record.fits)) keeps ?_ written
      intro new isKey
      exact ⟨record, isStored, home.trans isKey.symm, same⟩

/-- Nothing is kept of a row. -/
def Gone (store : Bytes → Option Bytes) (table : TableDef) (row : Row) :
    Prop :=
  ∀ change ∈ eraseChanges table row, store change.1 = none

theorem eq_none_of_mem_eraseChanges
    {row : Row} {change : Change}
    (member : change ∈ eraseChanges table row) :
    change.2 = none := by
  rcases mem_append.mp member with inIndexes | isRow
  · obtain ⟨index, _, inEntries⟩ := mem_flatMap.mp inIndexes
    obtain ⟨entry, _, rfl⟩ := mem_map.mp inEntries
    rfl
  · rw [mem_singleton.mp isRow]

theorem view_eraseChanges
    {catalog : Catalog}
    (inCatalog : table ∈ catalog.tables)
    (row : Row) (state : RecordState) (key : Bytes) :
    catalog.view (state.changed (eraseChanges table row)).transaction.get key =
      if key ∈ (eraseChanges table row).map Prod.fst then none
      else catalog.view state.transaction.get key := by
  rw [view_changed (fun change member => owns_of_mem_eraseChanges inCatalog member)]
  split
  · next isErased =>
      obtain ⟨change, member, rfl⟩ := mem_map.mp isErased
      rw [Overlay.lastWrite_of_mem member (fun other isOther _ => by
        rw [eq_none_of_mem_eraseChanges isOther, eq_none_of_mem_eraseChanges member]),
        eq_none_of_mem_eraseChanges member]
      rfl
  · next isKept =>
      rw [Overlay.lastWrite_of_absent (fun change member sameKey =>
        isKept (mem_map.mpr ⟨change, member, sameKey⟩))]
      rfl

section

variable
  (inCatalog : table ∈ records.catalog.tables)

include inCatalog

theorem gone_eraseChanges
    (row : Row) {other : Row}
    (gone : Gone (records.catalog.view state.transaction.get) table other) :
    Gone (records.catalog.view (state.changed
      (eraseChanges table row)).transaction.get) table other := by
  intro change member
  rw [view_eraseChanges inCatalog]
  split
  · rfl
  · exact gone change member

theorem gone_of_same
    {row other : Row} (same : other.Same row) (state : RecordState) :
    Gone (records.catalog.view (state.changed
      (eraseChanges table row)).transaction.get) table other := by
  intro change member
  have isErased : change.1 ∈ (eraseChanges table row).map Prod.fst := by
    have sameChanges : eraseChanges table other = eraseChanges table row := by
      have sameEntries : ∀ index, admittedEntries table index other =
          admittedEntries table index row :=
        same.admittedEntries table
      simp only [eraseChanges, sameEntries, same.rowKey table]
    rw [sameChanges] at member
    exact mem_map.mpr ⟨change, member, rfl⟩
  rw [view_eraseChanges inCatalog, if_pos isErased]

/-- Erasing rows that are stored, or gone already, keeps the others. -/
theorem keeps_forEach_eraseRow
    (keeps : Catalog.Keeps wellFormed state)
    (stored : ∀ row ∈ rows,
      StoredAs wellFormed (records.catalog.view state.transaction.get) table row ∨
        Gone (records.catalog.view state.transaction.get) table row)
    (ran : (forEach (eraseRow table) rows).run state = (.ok (), after)) :
    Catalog.Keeps wellFormed after := by
  induction rows generalizing state with
  | nil =>
      cases ran
      exact keeps
  | cons row rest ih =>
      obtain ⟨_, between, first, ranRest⟩ := run_bind_eq_ok.mp ran
      rw [run_eraseRow] at first
      cases first
      rcases stored row (mem_cons_self ..) with storedAs | gone
      · obtain ⟨record, isStored, rfl, same⟩ := storedAs
        refine ih ?_ ?_ ranRest
        · exact consistent_erased keeps isStored same (view_changed
            (fun change member => owns_of_mem_eraseChanges inCatalog member) state)
        · intro other inRest
          rcases stored other (mem_cons_of_mem _ inRest) with
            otherStored | otherGone
          · by_cases sameHome : homeOf (record.table, row) =
                homeOf (record.table, other)
            · obtain ⟨otherRecord, isOther, otherTable, otherSame⟩ := otherStored
              have home : homeOf (record.table, row) = record.key :=
                homeOf_eq_key rfl same
              have isHome : record.key = otherRecord.key := by
                rw [← home, sameHome, homeOf_eq_key otherTable otherSame]
              have sameRecords := CatalogRow.same_of_body wellFormed isHome
                (isStored.body_eq isOther isHome)
              exact .inr (gone_of_same inCatalog (otherSame.trans
                (sameRecords.symm.trans same.symm)) state)
            · exact .inl (storedAs_eraseChanges inCatalog sameHome otherStored)
          · exact .inr (gone_eraseChanges inCatalog row otherGone)
      · have sameView : records.catalog.view (state.changed
            (eraseChanges table row)).transaction.get =
            records.catalog.view state.transaction.get := by
          funext key
          rw [view_eraseChanges inCatalog]
          split
          · next isErased =>
              obtain ⟨change, member, rfl⟩ := mem_map.mp isErased
              exact (gone change member).symm
          · rfl
        refine ih ?_ ?_ ranRest
        · rw [Catalog.Keeps, sameView]
          exact keeps
        · intro other inRest
          rw [sameView]
          exact stored other (mem_cons_of_mem _ inRest)

theorem storedAs_of_purge
    (readsAll : records.security.readable context table = none)
    (keeps : Catalog.Keeps wellFormed state) {query : Query}
    (wholeRows : query.projection = .all)
    (noCompute : query.compute = [])
    {cursor : Cursor Row}
    (executed : records.reads.execute state.transaction context table query =
      .ok cursor)
    {atMost : Option Nat}
    (matched : collectMatched atMost cursor = .ok rows) :
    ∀ row ∈ rows, StoredAs wellFormed
      (records.catalog.view state.transaction.get) table row := by
  obtain ⟨plan, planned, opened⟩ := opened_of_execute executed
  obtain ⟨rowFilter, _, rfl⟩ := planned_of_plan readsAll planned
  rw [wholeRows] at opened
  intro row member
  obtain ⟨record, isStored, isTable, isRead⟩ := record_of_openCursor keeps.comprises
    inCatalog noCompute opened (collect_of_collectMatched matched) row member
  exact ⟨record, isStored, isTable, isRead.same⟩

end

end RecordTransaction

/-- A write of rows that succeeds keeps exactly the rows and entries. -/
theorem KeyedWrite.keeps
    (staysValid : table.StaysValid)
    (inCatalog : table ∈ records.catalog.tables)
    {write : KeyedWrite}
    (fits : ∀ row ∈ write.rows, row.Fits)
    (unstamped : write.Bulk → table.SlotsUnstamped)
    (before : Catalog.Keeps wellFormed state)
    (ran : (write.operation records context table).run state = (.ok (), after)) :
    Catalog.Keeps wellFormed after := by
  cases write with
  | insert row =>
      obtain ⟨_, checked, written⟩ := run_reading_bind_eq_ok.mp ran
      obtain ⟨valid, read⟩ := checkInsert_spec checked
      exact keeps_writeRow inCatalog staysValid valid (fits row (mem_singleton.mpr rfl))
        before (fun _ => meets_of_read before inCatalog read) written
  | update row =>
      obtain ⟨_, checked, written⟩ := run_reading_bind_eq_ok.mp ran
      obtain ⟨valid, read⟩ := checkUpdate_spec checked
      exact keeps_writeRow inCatalog staysValid valid (fits row (mem_singleton.mpr rfl))
        before (fun _ => meets_of_read before inCatalog read) written
  | upsert row =>
      obtain ⟨_, checked, written⟩ := run_reading_bind_eq_ok.mp ran
      obtain ⟨valid, read⟩ := checkUpsert_spec checked
      exact keeps_writeRow inCatalog staysValid valid (fits row (mem_singleton.mpr rfl))
        before (fun _ => meets_of_read before inCatalog read) written
  | updateIfUnchanged row expected =>
      obtain ⟨_, checked, written⟩ := run_reading_bind_eq_ok.mp ran
      have valid := validate_of_checkUpdateIfUnchanged checked
      have read := readRowUnchecked_of_visibleRow
        (checkUpdateIfUnchanged_spec checked).1
      exact keeps_writeRow inCatalog staysValid valid (fits row (mem_singleton.mpr rfl))
        before (fun _ => meets_of_read before inCatalog read) written
  | insertMany rows
  | upsertMany rows
  | updateMany rows =>
      exact keeps_writeMany inCatalog staysValid (unstamped trivial) fits before ran

namespace RecordWrite

/-- A write that is not disturbed keeps exactly the rows and entries. -/
theorem keeps
    (staysValid : ∀ table ∈ records.catalog.tables, table.StaysValid)
    (inCatalog : table ∈ records.catalog.tables)
    {write : RecordWrite}
    (undisturbed : write.Undisturbed records context table state)
    (before : Catalog.Keeps wellFormed state)
    (ran : (write.operation records context table).run state = (.ok (), after)) :
    Catalog.Keeps wellFormed after := by
  cases write with
  | keyed write =>
      exact KeyedWrite.keeps (staysValid table inCatalog) inCatalog
        undisturbed.1 undisturbed.2 before ran
  | predicate write atMost =>
      obtain ⟨_, _, ran, isAfter⟩ := run_bind_eq_ok.mp ran
      cases isAfter
      cases write with
      | deleteWhere filter =>
          obtain ⟨rows, checked, collected⟩ := run_reading_bind_eq_ok.mp ran
          exact keeps_collect_deleteMatched staysValid
            inCatalog before (undisturbed rows checked) collected
      | updateWhere filter assignments =>
          obtain ⟨rows, checked, collected⟩ := run_reading_bind_eq_ok.mp ran
          exact keeps_collect_updateMatched (staysValid table inCatalog)
            inCatalog (fun assignment member => (undisturbed.1 assignment
            member).1) (fun assignment member => (undisturbed.1 assignment
            member).2) before (undisturbed.2 rows checked) collected
  | delete primaryKey =>
      obtain ⟨_, _, ran, isAfter⟩ := run_bind_eq_ok.mp ran
      cases isAfter
      obtain ⟨found, checked, removed⟩ := run_reading_bind_eq_ok.mp ran
      cases found with
      | none =>
          cases removed
          exact before
      | some doomed =>
          have free := undisturbed doomed checked
          replace checked := ok_of_bind checked
          obtain ⟨existing, visible, checked⟩ := bind_eq_ok.mp checked
          cases existing with
          | none => cases checked
          | some row =>
              obtain ⟨_, closed, isDoomed⟩ := bind_eq_ok.mp checked
              cases isDoomed
              obtain ⟨_, _, removed, isAfter⟩ := run_bind_eq_ok.mp removed
              cases isAfter
              exact keeps_deletion rfl staysValid before
                (storedAs_of_visibleRow inCatalog before visible) closed free removed
  | deleteIfUnchanged primaryKey expected =>
      obtain ⟨doomed, checked, removed⟩ := run_reading_bind_eq_ok.mp ran
      obtain ⟨_, row, visible, _, closed⟩ := checkDeleteIfUnchanged_spec checked
      exact keeps_deletion rfl staysValid before (storedAs_of_visibleRow inCatalog
        before visible) closed (undisturbed doomed checked) removed
  | purgeDeleted instant atMost =>
      obtain ⟨_, _, ran, isAfter⟩ := run_bind_eq_ok.mp ran
      cases isAfter
      rw [RecordTransaction.purgeDeleted] at ran
      split at ran
      · cases ran
      · obtain ⟨_, between, authorized, ran⟩ := run_bind_eq_ok.mp ran
        rw [run_lift] at authorized
        obtain rfl : state = between := congrArg Prod.snd authorized
        obtain ⟨rows, checked, ran⟩ := run_reading_bind_eq_ok.mp ran
        obtain ⟨_, _, erased, isAfter⟩ := run_bind_eq_ok.mp ran
        cases isAfter
        obtain ⟨cursor, executed, matched⟩ := bind_eq_ok.mp checked
        refine keeps_forEach_eraseRow inCatalog before
          (fun row member => .inl ?_) erased
        exact storedAs_of_purge inCatalog undisturbed before
          rfl rfl executed matched row member

/-- Where the store fills nothing in, no write that names its rows is disturbed. -/
theorem undisturbed_of_named
    (unmanaged : records.catalog.Unmanaged)
    (inCatalog : table ∈ records.catalog.tables)
    {write : RecordWrite} (named : write.Named)
    (fits : ∀ row ∈ write.rows, row.Fits)
    (state : RecordState) :
    write.Undisturbed records context table state := by
  have erases {row : Row} {doomed : List (TableDef × Row)}
      (closed : records.deletionClosure context table row state.transaction =
        .ok doomed) :
      records.RemovalsFree doomed state := by
    refine removalsFree_of_erases (fun pair member => ?_) state
    exact (unmanaged pair.1 (tables_of_deletionClosure rfl
      inCatalog closed pair member)).2
  cases write with
  | keyed write =>
      exact ⟨fits, fun _ => TableDef.slotsUnstamped_of_unmanaged
        (unmanaged table inCatalog).1⟩
  | predicate write atMost => cases named
  | delete primaryKey =>
      intro doomed checked
      replace checked := ok_of_bind checked
      obtain ⟨existing, _, checked⟩ := bind_eq_ok.mp checked
      cases existing with
      | none => cases checked
      | some row =>
          obtain ⟨_, closed, isDoomed⟩ := bind_eq_ok.mp checked
          cases isDoomed
          exact erases closed
  | deleteIfUnchanged primaryKey expected =>
      intro doomed checked
      obtain ⟨_, row, _, _, closed⟩ := checkDeleteIfUnchanged_spec checked
      exact erases closed
  | purgeDeleted instant atMost => cases named

end RecordWrite

end

end SlateOrm
