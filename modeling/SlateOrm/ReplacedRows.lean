import SlateOrm.ConsistentRuns
import SlateOrm.MatchedRows

namespace SlateOrm

open List Keys Write RecordState

/-!
# Rows that are replaced in place

An update by predicate writes each row that it has matched with its assignments
applied.  While these leave a row under its primary key, the row takes the place
of the one it was made of, and the rest of the store is left as it is.
-/

section

variable [Platform]

/-! ## Replacements -/

/-- Rows that an update has matched, beside what it writes of them. -/
def RecordTransaction.replacements (records : RecordTransaction)
    (table : TableDef) (assignments : List (Ordinal × Scalar)) :
    List Row → Nat → List (Row × Row)
  | [], _ => []
  | row :: rest, readings =>
      (row, records.stamped table (assigned assignments row) (some row) readings) ::
        records.replacements table assignments rest
          (if table.isManaged then readings + 1 else readings)

variable {assignments : List (Ordinal × Scalar)} {rows : List Row}

theorem RecordTransaction.mem_of_mem_replacements
    {records : RecordTransaction} {table : TableDef} {readings : Nat}
    {pair : Row × Row}
    (member : pair ∈ records.replacements table assignments rows readings) :
    pair.1 ∈ rows := by
  induction rows generalizing readings with
  | nil => cases member
  | cons row rest ih =>
      rcases mem_cons.mp member with rfl | inRest
      · exact mem_cons_self ..
      · exact mem_cons_of_mem _ (ih inRest)

/-- A row can take the place of another in its table. -/
structure TakesPlace (table : TableDef) (pair : Row × Row) : Prop where
  sameKey : (pair.2.primaryKeyValues table).map Value.canonical =
    (pair.1.primaryKeyValues table).map Value.canonical
  storable : ∃ row : Row, pair.2.StoredAlike table row ∧
    row.validate table = .ok () ∧ row.Fits

/-- Rows are replaced under their keys, and nothing else is changed. -/
structure ReplacedInPlace {catalog : Catalog} (wellFormed : catalog.WellFormed)
    (table : TableDef) (pairs : List (Row × Row))
    (before after : Snapshot) : Prop where
  keys : ∀ (owner : TableDef) (primaryKey : List Value),
    (after.get (Keys.rowKey owner primaryKey)).isSome =
      (before.get (Keys.rowKey owner primaryKey)).isSome
  replaced : ∀ pair ∈ pairs, ∃ row, StoredRow after.get table row ∧
    pair.2.StoredAlike table row ∧ Keys.rowKey table (row.primaryKeyValues table) =
        Keys.rowKey table (pair.1.primaryKeyValues table)
  untouched : ∀ (owner : TableDef) (primaryKey : List Value),
    (∀ pair ∈ pairs, Keys.rowKey owner primaryKey ≠
      Keys.rowKey table (pair.1.primaryKeyValues table)) →
      after.get (Keys.rowKey owner primaryKey) =
        before.get (Keys.rowKey owner primaryKey)
  /-- The store holds exactly its rows and their entries. -/
  consistent : (catalog.layout wellFormed).Consistent (catalog.view after.get)

/-! ## One replacement -/

section

variable
  {records : RecordTransaction}
  {wellFormed : records.catalog.WellFormed}
  {context : SecurityContext}
  {table : TableDef}

namespace RecordTransaction

theorem takesPlace_of_replaced
    (inCatalog : table ∈ records.catalog.tables)
    {pairs : List (Row × Row)} {before after : Snapshot}
    (replaced : ReplacedInPlace wellFormed table pairs before after) :
    ∀ pair ∈ pairs, TakesPlace table pair := by
  intro pair member
  obtain ⟨row, stored, alike, isKey⟩ := replaced.replaced pair member
  refine ⟨?_, row, alike, stored.valid, stored.fits⟩
  have isHome : (stored.toCatalogRow inCatalog).key =
      rowKey table (pair.1.primaryKeyValues table) :=
    isKey
  have sameKey := canonical_of_rowKey wellFormed isHome
  exact alike.primaryKey.trans sameKey.symm

variable {state : RecordState}

/-- A matched row whose turn has come is replaced in its place. -/
theorem replaces_updateMatched
    (inCatalog : table ∈ records.catalog.tables)
    {row : Row} {between : RecordState} (keeps : Catalog.Keeps wellFormed state)
    (isStored : StoredAs wellFormed
      (records.catalog.view state.transaction.get) table row)
    (takes : TakesPlace table (row, records.stamped table
      (assigned assignments row) (some row) state.readings))
    {written : Row}
    (ran : (records.updateMatched context table assignments row).run state =
      (.ok written, between)) :
    ∃ new : CatalogRow records.catalog, new.table = table ∧
      new.key = homeOf (table, row) ∧
      (records.stamped table (assigned assignments row) (some row)
        state.readings).StoredAlike table new.row ∧
      Catalog.Keeps wellFormed between ∧
      between = (ticked table state).changed (rowChanges table new.row (some row)) := by
  obtain ⟨replacing, alike, valid, fits⟩ := takes.storable
  let new : CatalogRow records.catalog := ⟨table, replacing, inCatalog, valid, fits⟩
  obtain ⟨record, stored, isTable, isRow⟩ := isStored
  have home : new.key = homeOf (table, row) := by
    have sameKey : encode (replacing.primaryKeyValues table) =
        encode (row.primaryKeyValues table) :=
      encodeWith_congr (alike.primaryKey.symm.trans takes.sameKey)
    rw [CatalogRow.key, homeOf, rowKey, rowKey, sameKey]
  obtain ⟨_, -, ran⟩ := run_reading_bind_eq_ok.mp ran
  obtain ⟨_, _, wrote, isBetween⟩ := run_bind_eq_ok.mp ran
  cases isBetween
  have meets : new.Meets wellFormed
      (records.catalog.view state.transaction.get) (some row) :=
    ⟨record, stored, (homeOf_eq_key isTable isRow).symm.trans home.symm, isRow⟩
  obtain ⟨kept, isBetween⟩ := changed_of_writeRow inCatalog keeps rfl alike meets wrote
  exact ⟨new, rfl, home, alike, kept, isBetween⟩

/-! ## A run of replacements -/

/-- Matched rows that have places of their own are replaced in them. -/
theorem replaced_collect_updateMatched
    (inCatalog : table ∈ records.catalog.tables)
    {updated : List Row} {after : RecordState}
    (keeps : Catalog.Keeps wellFormed state)
    (stored : ∀ row ∈ rows, StoredAs wellFormed
      (records.catalog.view state.transaction.get) table row)
    (apart : rows.Pairwise (fun row other =>
      homeOf (table, row) ≠ homeOf (table, other)))
    (take : ∀ pair ∈ records.replacements table assignments rows
      state.readings, TakesPlace table pair)
    (ran : (collect (records.updateMatched context table assignments)
      rows).run state = (.ok updated, after)) :
    ReplacedInPlace wellFormed table
      (records.replacements table assignments rows state.readings)
      state.transaction after.transaction := by
  induction rows generalizing state updated with
  | nil =>
      cases ran
      exact ⟨fun _ _ => rfl, nofun, fun _ _ _ => rfl, keeps⟩
  | cons row rest ih =>
      obtain ⟨_, between, first, ran⟩ := run_bind_eq_ok.mp ran
      obtain ⟨others, _, ranRest, isAfter⟩ := run_bind_eq_ok.mp ran
      cases isAfter
      rw [replacements] at take ⊢
      have isStored := stored row (mem_cons_self ..)
      obtain ⟨new, rfl, home, alike, kept, isBetween⟩ := replaces_updateMatched
        inCatalog keeps isStored (take _ (mem_cons_self ..)) first
      obtain ⟨differs, apartRest⟩ := pairwise_cons.mp apart
      have readings : between.readings =
          if new.table.isManaged then state.readings + 1
          else state.readings := by
        rw [isBetween, changed_readings, ticked]
        split <;> rfl
      have wrote : between.transaction = (state.changed
          (rowChanges new.table new.row (some row))).transaction := by
        rw [isBetween, changed_ticked]
      have storedRest : ∀ other ∈ rest, StoredAs wellFormed
          (records.catalog.view between.transaction.get) new.table other := by
        intro other inRest
        rw [wrote]
        exact storedAs_rowChanges (some row) (home ▸ differs other inRest)
          (stored other (mem_cons_of_mem _ inRest))
      rw [← readings] at take ⊢
      have later := ih kept storedRest apartRest
        (fun pair inRest => take pair (mem_cons_of_mem _ inRest)) ranRest
      have elsewhere (owner : TableDef) (primaryKey : List Value)
          (outside : rowKey owner primaryKey ≠
            rowKey new.table (row.primaryKeyValues new.table)) :
          between.transaction.get (rowKey owner primaryKey) =
            state.transaction.get (rowKey owner primaryKey) := by
        rw [wrote]
        refine get_rowChanges_of_ne (fun isNew => outside ?_) (some row) state
        exact isNew.trans home
      have held : between.transaction.get
          (rowKey new.table (row.primaryKeyValues new.table)) = some new.body := by
        have isHome : rowKey new.table (new.row.primaryKeyValues new.table) =
              rowKey new.table (row.primaryKeyValues new.table) :=
          home
        rw [wrote, get_changed, ← isHome, lastWrite_rowKey]
        rfl
      refine ⟨?_, ?_, ?_, later.consistent⟩
      · intro owner primaryKey
        rw [later.keys]
        by_cases isHome : rowKey owner primaryKey =
            rowKey new.table (row.primaryKeyValues new.table)
        · obtain ⟨record, wasStored, isTable, isRow⟩ := isStored
          have wasHeld := (storedIn_of_stored wasStored isTable).held
          have wasHome : homeOf (new.table, row) = record.key :=
            homeOf_eq_key isTable isRow
          rw [← wasHome] at wasHeld
          rw [isHome, held]
          exact (congrArg Option.isSome wasHeld).symm
        · rw [elsewhere owner primaryKey isHome]
      · intro pair member
        rcases mem_cons.mp member with rfl | inRest
        · refine ⟨new.row, ⟨new.valid, new.fits, ?_⟩, alike, home⟩
          refine (later.untouched _ _ (fun other inRest sameHome => ?_)).trans
            ((congrArg between.transaction.get home).trans held)
          exact differs other.1 (mem_of_mem_replacements inRest)
            (home.symm.trans sameHome)
        · exact later.replaced pair inRest
      · intro owner primaryKey outside
        refine (later.untouched owner primaryKey (fun pair inRest =>
          outside pair (mem_cons_of_mem _ inRest))).trans ?_
        exact elsewhere owner primaryKey (outside _ (mem_cons_self ..))

/-- What an update is about is stored, each row under a key of its own. -/
theorem stored_of_checkUpdateWhere
    (inCatalog : table ∈ records.catalog.tables)
    {predicate : Expr} {atMost : Option Nat}
    (keeps : Catalog.Keeps wellFormed state)
    (matched : records.checkUpdateWhere context table predicate assignments
      atMost state.transaction = .ok rows) :
    (∀ row ∈ rows, StoredAs wellFormed
      (records.catalog.view state.transaction.get) table row) ∧
      rows.Pairwise (fun row other =>
        homeOf (table, row) ≠ homeOf (table, other)) := by
  obtain ⟨_, -, checked⟩ := bind_eq_ok.mp matched
  obtain ⟨_, -, checked⟩ := bind_eq_ok.mp checked
  split at checked
  · cases checked
    exact ⟨nofun, .nil⟩
  · obtain ⟨_, -, found⟩ := bind_eq_ok.mp checked
    obtain ⟨visited, beside, storedIn, apart⟩ :=
      stored_of_matchingRows keeps inCatalog found
    have isHome : ∀ (row : Row) (record : CatalogRow records.catalog),
        record.StoredIn state.transaction table → row.Same record.row →
          homeOf (table, row) = record.key :=
      fun row record stored same => homeOf_eq_key stored.ofTable same
    constructor
    · intro row member
      obtain ⟨record, inVisited, same⟩ := exists_beside_left beside row member
      have stored := storedIn record inVisited
      exact ⟨record, stored.stored wellFormed, stored.ofTable, same⟩
    · have besides : List.Forall₂ (fun record row =>
          homeOf (table, row) = record.key) visited rows := by
        refine ((forall₂_and_left visited rows).mpr
          ⟨storedIn, beside.flip⟩).imp (fun record row both => ?_)
        exact isHome row record both.1 both.2
      refine pairwise_of_forall₂ ?_ besides apart
      intro record other row row' differs home home'
      rw [home, home']
      exact differs

end RecordTransaction

end

/-! ## Updates by predicate -/

/--
An update replaces the rows that it has matched in their places exactly when
what it writes of each keeps the row's primary key and can be stored.
-/
theorem replacedInPlace_iff
    {tables : List TableDef}
    (built : ∀ table ∈ tables, ∃ builder : TableBuilder, builder.build = .ok table)
    {records : RecordTransaction}
    (made : Catalog.fromTables tables = .ok records.catalog)
    {table : TableDef}
    (inCatalog : table ∈ records.catalog.tables)
    {context : SecurityContext} {predicate : Expr}
    {assignments : List (Ordinal × Scalar)} {atMost : Option Nat}
    {state after : RecordState}
    (keeps : Catalog.Keeps (Catalog.wellFormed_of_fromTables built made) state)
    {rows : List Row}
    (matched : records.checkUpdateWhere context table predicate assignments
      atMost state.transaction = .ok rows)
    {returned : List Row}
    (ran : (records.updateWhere context table predicate assignments
      atMost).run state = (.ok returned, after)) :
    ReplacedInPlace (Catalog.wellFormed_of_fromTables built made) table
        (records.replacements table assignments rows state.readings)
        state.transaction after.transaction ↔
      ∀ pair ∈ records.replacements table assignments rows state.readings,
        TakesPlace table pair := by
  obtain ⟨rows', matched', collected⟩ := run_reading_bind_eq_ok.mp ran
  cases matched.symm.trans matched'
  obtain ⟨stored, apart⟩ := RecordTransaction.stored_of_checkUpdateWhere
    inCatalog keeps matched
  exact ⟨RecordTransaction.takesPlace_of_replaced inCatalog,
    fun take => RecordTransaction.replaced_collect_updateMatched inCatalog
      keeps stored apart take collected⟩

end

/-! ## An account that is given another key -/

section

local instance accountsPlatform : Platform := asciiPlatform

theorem keeps_oneAccount :
    Catalog.Keeps (Catalog.wellFormed_of_fromTables built_accounts rfl)
      oneAccount := by
  let records : RecordTransaction := .plain ⟨[accounts]⟩
  have inserted : ((KeyedWrite.insert
      ⟨[.i64 1, .i64 10, .i64 20]⟩).operation records .superuser
        accounts).run (.begin ∅) = (.ok (), oneAccount) :=
    Prod.ext rfl rfl
  have fits : ∀ row ∈ (KeyedWrite.insert
      ⟨[.i64 1, .i64 10, .i64 20]⟩).rows, row.Fits := by
    simp [KeyedWrite.rows, Row.Fits, Value.fits]
  exact KeyedWrite.keeps (TableDef.staysValid_of_unfilled rfl rfl)
    (mem_singleton.mpr rfl) fits (by rintro ⟨⟩)
    Catalog.KeepsOnly.of_empty.keeps inserted

/-- What an assignment makes of the account. -/
def updatedAccount (assignment : Ordinal × Scalar) :
    Except KernelError (List Row) × RecordState :=
  ((RecordTransaction.plain ⟨[accounts]⟩).updateWhere .superuser accounts
    (.all []) [assignment] none).run oneAccount

theorem exists_updated
    (assignment : Ordinal × Scalar)
    (accepted : (updatedAccount assignment).1.isOk = true) :
    ∃ returned, updatedAccount assignment =
      (.ok returned, (updatedAccount assignment).2) := by
  cases isReturned : (updatedAccount assignment).1 with
  | error error =>
      rw [isReturned] at accepted
      cases accepted
  | ok returned => exact ⟨returned, Prod.ext isReturned rfl⟩

/-- The phone of the account is changed. -/
theorem replacedInPlace_phone :
    ∃ (returned : List Row) (after : RecordState),
      ((RecordTransaction.plain ⟨[accounts]⟩).updateWhere .superuser accounts
        (.all []) [(1, .literal (.i64 30))] none).run oneAccount =
          (.ok returned, after) ∧
      ReplacedInPlace (Catalog.wellFormed_of_fromTables built_accounts rfl)
        accounts [(⟨[.i64 1, .i64 10, .i64 20]⟩, ⟨[.i64 1, .i64 30, .i64 20]⟩)]
        oneAccount.transaction after.transaction := by
  have matched : (RecordTransaction.plain ⟨[accounts]⟩).checkUpdateWhere
      .superuser accounts (.all []) [(1, .literal (.i64 30))] none
        oneAccount.transaction = .ok [⟨[.i64 1, .i64 10, .i64 20]⟩] :=
    rfl
  obtain ⟨returned, ran⟩ := exists_updated (1, .literal (.i64 30)) (by decide)
  refine ⟨returned, _, ran, (replacedInPlace_iff built_accounts rfl
    (mem_singleton.mpr rfl) keeps_oneAccount matched ran).mpr ?_⟩
  intro pair member
  rw [mem_singleton.mp member]
  refine ⟨rfl, ⟨[.i64 1, .i64 30, .i64 20]⟩,
    Row.Same.storedAlike rfl accounts, rfl, ?_⟩
  simp [Row.Fits, Value.fits]

/-- An account that is given another key is stored under both. -/
theorem not_replacedInPlace_movedAccount :
    ¬∀ (_ : Platform) (tables : List TableDef) (built : ∀ table ∈ tables,
        ∃ builder : TableBuilder, builder.build = .ok table)
      (records : RecordTransaction)
      (made : Catalog.fromTables tables = .ok records.catalog),
      ∀ table ∈ records.catalog.tables,
      ∀ (context : SecurityContext) (predicate : Expr)
        (assignments : List (Ordinal × Scalar)) (atMost : Option Nat)
        (state after : RecordState) (rows returned : List Row),
      Catalog.Keeps (Catalog.wellFormed_of_fromTables built made) state →
      records.checkUpdateWhere context table predicate assignments atMost
        state.transaction = .ok rows →
      (records.updateWhere context table predicate assignments atMost).run
        state = (.ok returned, after) →
      ReplacedInPlace (Catalog.wellFormed_of_fromTables built made) table
        (records.replacements table assignments rows state.readings)
        state.transaction after.transaction := by
  intro always
  obtain ⟨returned, ran⟩ := exists_updated (0, .literal (.i64 3)) (by decide)
  have replaced := always accountsPlatform [accounts] built_accounts
    (.plain ⟨[accounts]⟩) rfl accounts (mem_singleton.mpr rfl) .superuser
    (.all []) [(0, .literal (.i64 3))] none oneAccount _
    [⟨[.i64 1, .i64 10, .i64 20]⟩] returned keeps_oneAccount rfl ran
  have sameKeys := replaced.keys accounts [.i64 3]
  exact absurd sameKeys (by decide)

end

end SlateOrm
