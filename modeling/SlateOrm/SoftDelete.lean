import Mathlib.Tactic.IntervalCases
import SlateOrm.RowConstraints

namespace SlateOrm

open RecordTransaction

/-!
# Retired rows and their index entries

A deletion in a table with a soft-delete column rewrites the row with its
timestamp and does not look whether the unique slots that the new row takes are
free.  While they are, every stored row, live or retired, is found through each
of its entries, and no slot is held twice.
-/

section

variable [Platform]

/-- Every stored row is indexed, and no unique slot is held by two. -/
structure RowsIndexed (catalog : Catalog)
    (store : Bytes → Option Bytes) : Prop where
  /-- What a table's range holds is a row under its key. -/
  rows : ∀ table ∈ catalog.tables, ∀ key body,
    Keys.tablePrefix table <+: key → store key = some body →
      ∃ row, StoredRow store table row ∧
        key = Keys.rowKey table (row.primaryKeyValues table)
  /-- Each entry of a stored row is there. -/
  entries : ∀ table ∈ catalog.tables, ∀ row, StoredRow store table row →
    ∀ index ∈ table.indexes, ∀ entry ∈ admittedEntries table index row,
      store entry.key = some entry.value
  /-- An entry leads to the row that it was computed from. -/
  owner : ∀ table ∈ catalog.tables, ∀ row, StoredRow store table row →
    ∀ index ∈ table.indexes, ∀ entry ∈ admittedEntries table index row,
      ∀ indexed primaryKey, Keys.decodeIndexEntry table index entry.key entry.value =
          .ok (indexed, primaryKey) →
        Keys.rowKey table primaryKey = Keys.rowKey table (row.primaryKeyValues table)
  /-- A unique slot is held by at most one row. -/
  slots : ∀ table ∈ catalog.tables, ∀ row other,
    StoredRow store table row → StoredRow store table other →
    ∀ index ∈ table.indexes, ∀ entry ∈ admittedEntries table index row,
        ∀ entry' ∈ admittedEntries table index other,
          entry.enforcesUniqueness = true → entry.key = entry'.key →
            Keys.rowKey table (row.primaryKeyValues table) =
              Keys.rowKey table (other.primaryKeyValues table)

variable {catalog : Catalog}

theorem IndexesExact.rowsIndexed
    {store : Bytes → Option Bytes} (exact : IndexesExact catalog store) :
    RowsIndexed catalog store := by
  refine ⟨exact.rows, ?_, exact.owner, exact.slots⟩
  intro table inCatalog row stored index declared entry member
  obtain ⟨bytes, ofIndex⟩ := ofIndex_of_mem_admittedEntries member
  refine (exact.entries _ _ (Keys.OfIndex.inIndexSpace ⟨bytes, ofIndex⟩)).mpr ?_
  exact ⟨table, inCatalog, row, stored, index, declared, entry, member, rfl, rfl⟩

/-! ## Runs -/

/-- What keeps a call from leaving a store inconsistent. -/
def Call.Undisturbed (state : RecordState) : Call → Prop
  | write records context table asked => asked.Undisturbed records context table state
  | commit => True

variable {state : RecordState}

theorem Catalog.KeepsOnly.undisturbedCall
    {wellFormed : catalog.WellFormed}
    (staysValid : ∀ table ∈ catalog.tables, table.StaysValid)
    {call : Call} (onCatalog : call.On catalog) {after : RecordState}
    (undisturbed : call.Undisturbed state) (before : KeepsOnly wellFormed state)
    (stepped : call.step state = some after) :
    KeepsOnly wellFormed after := by
  cases call with
  | write records context table write =>
      obtain ⟨rfl, inCatalog⟩ := onCatalog
      rw [Call.step] at stepped
      split at stepped
      · next ran =>
          cases stepped
          exact before.undisturbed staysValid inCatalog undisturbed ran
      · cases stepped
  | commit => exact before.congr (Call.get_commit stepped)

theorem Catalog.keepsOnly_of_undisturbed
    (wellFormed : catalog.WellFormed)
    (staysValid : ∀ table ∈ catalog.tables, table.StaysValid)
    {calls : List Call}
    (allowed : LabelledRun.Along Call.step
      (fun state call => call.On catalog ∧ call.Undisturbed state)
      (.begin ∅) calls)
    (run : LabelledRun Call.step (.begin ∅) calls state) :
    Catalog.KeepsOnly wellFormed state := by
  refine run.holds_of_along ?_ allowed Catalog.KeepsOnly.of_empty
  intro before call after stepped keepsBefore ⟨onCatalog, undisturbed⟩
  exact keepsBefore.undisturbedCall staysValid onCatalog undisturbed stepped

/--
Whatever a caller does from an empty store, while timestamps cannot make a row
invalid and no call is disturbed, every stored row is found through each of its
entries and no unique slot is held by two rows.
-/
theorem rowsIndexed_of_calls
    {tables : List TableDef}
    (built : ∀ table ∈ tables, ∃ builder : TableBuilder, builder.build = .ok table)
    {catalog : Catalog}
    (made : Catalog.fromTables tables = .ok catalog)
    (staysValid : ∀ table ∈ catalog.tables, table.StaysValid)
    {calls : List Call}
    (allowed : LabelledRun.Along Call.step
      (fun state call => call.On catalog ∧ call.Undisturbed state)
      (.begin ∅) calls)
    {state : RecordState} (run : LabelledRun Call.step (.begin ∅) calls state) :
    RowsIndexed catalog state.transaction.get := by
  have wellFormed := Catalog.wellFormed_of_fromTables built made
  have keepsOnly := Catalog.keepsOnly_of_undisturbed wellFormed staysValid allowed run
  exact (indexesExact_of_consistent keepsOnly.consistent).rowsIndexed

/-! ## Deletions that can be looked at beforehand -/

namespace RecordTransaction

instance (table : TableDef) (row : Row) (previous : Option Row) (snapshot : Snapshot) :
    Decidable (SlotsFree table row previous snapshot) :=
  decidable_of_iff
    (∀ index ∈ table.indexes, ∀ entry ∈ addedEntries table row previous index,
      entry.enforcesUniqueness = true →
        ∀ value ∈ snapshot.get entry.key, value = entry.value)
    Iff.rfl

/-- Whether what is retired finds its unique slots free is decided in turn. -/
instance decidableRemovalsFree (records : RecordTransaction) :
    (doomed : List (TableDef × Row)) → (state : RecordState) →
      Decidable (records.RemovalsFree doomed state)
  | [], _ => .isTrue trivial
  | (table, row) :: rest, state =>
      have := decidableRemovalsFree records rest (records.removal state table row).2
      inferInstanceAs (Decidable ((∀ column ∈ table.softDelete,
        SlotsFree table (records.retiredRow table column row state.readings)
          (some row) state.transaction) ∧
        records.RemovalsFree rest (records.removal state table row).2))

/-- Whether a deletion would retire no row into a slot of another. -/
def deletionFree (records : RecordTransaction) (context : SecurityContext)
    (table : TableDef) (primaryKey : List Value) (state : RecordState) :
    Bool :=
  match records.checkDelete context table primaryKey state.transaction with
  | .ok (some doomed) => decide (records.RemovalsFree doomed state)
  | _ => true

theorem undisturbed_of_deletionFree
    {records : RecordTransaction} {context : SecurityContext} {table : TableDef}
    {primaryKey : List Value}
    (free : records.deletionFree context table primaryKey state = true) :
    (RecordWrite.delete primaryKey).Undisturbed records context table
      state := by
  intro doomed checked
  rw [deletionFree, checked] at free
  exact of_decide_eq_true free

end RecordTransaction

end

/-! ## Badges -/

section

local instance badgesPlatform : Platform := asciiPlatform

/-- A table of badges, no two of which have a code and are live. -/
def badgesBuilder : TableBuilder where
  id := 1
  name := "badges"
  columns := [
    { name := "id", type := .i64 },
    { name := "code", type := .i64 },
    { name := "retired_at", type := .i64, nullable := true }]
  primaryKey := ["id"]
  indexes := [
    { id := 1
      name := "badges_code"
      columns := [("code", .asc), ("retired_at", .asc)]
      unique := true }]
  softDelete := some "retired_at"

/-- The index of the badges by code and retirement. -/
def badgesCode : IndexDef :=
  ⟨1, "badges_code", [⟨1, .asc⟩, ⟨2, .asc⟩], true, none, none, false⟩

/-- The table that the builder makes. -/
def badges : TableDef where
  id := 1
  name := "badges"
  columns := badgesBuilder.columns.map ColumnSpec.toColumn
  primaryKey := [0]
  bodyColumns := [1, 2]
  storedColumns := [1, 2]
  indexes := [badgesCode]
  checks := []
  foreignKeys := []
  tenantColumn := none
  softDelete := some 2
  schemaVersion := 0

theorem built_badges :
    ∀ table ∈ [badges], ∃ builder : TableBuilder, builder.build = .ok table := by
  intro table member
  rw [List.mem_singleton.mp member]
  exact ⟨badgesBuilder, rfl⟩

theorem staysValid_badges :
    ∀ table ∈ (⟨[badges]⟩ : Catalog).tables, table.StaysValid := by
  intro table member
  rw [List.mem_singleton.mp member]
  have wellFormed : badges.WellFormed :=
    TableBuilder.build_wellFormed (show badgesBuilder.build = .ok badges from rfl)
  have allLive : ∀ column ∈ badges.columns, column.isDropped = false := by
    decide
  intro row stamps fills valid
  refine validate_refilled wellFormed ?_ ?_ valid fills
  · intro ordinal column _ found
    exact allLive column (List.mem_of_getElem? found)
  · intro index declared
    rw [List.mem_singleton.mp declared]
    rfl

/-- Two badges of different codes go, one comes back, and the other is purged. -/
def badgeCalls : List Call := [.write (.plain ⟨[badges]⟩) .superuser badges
      (.keyed (.insertMany [⟨[.i64 1, .i64 7, .null]⟩, ⟨[.i64 2, .i64 8, .null]⟩])),
    .write (.plain ⟨[badges]⟩) .superuser badges (.delete [.i64 1]),
    .write (.plain ⟨[badges]⟩) .superuser badges (.delete [.i64 2]),
    .commit,
    .write (.plain ⟨[badges]⟩) .superuser badges
      (.keyed (.upsert ⟨[.i64 1, .i64 7, .null]⟩)),
    .write (.plain ⟨[badges]⟩) .superuser badges (.purgeDeleted 1 none)]

theorem deletionFree_badges (count : Nat) (id : Int64)
    (isCall : (count, id) ∈ [(1, 1), (2, 2)])
    (state : RecordState)
    (taken : (badgeCalls.take count).foldlM Call.step (.begin ∅) = some state) :
    deletionFree (.plain ⟨[badges]⟩) .superuser badges [.i64 id] state = true := by
  have free : ∀ pair ∈ [(1, (1 : Int64)), (2, 2)],
      ((badgeCalls.take pair.1).foldlM Call.step (.begin ∅)).all
        (deletionFree (.plain ⟨[badges]⟩) .superuser badges [.i64 pair.2]) = true := by
    decide
  have isFree := free (count, id) isCall
  rw [taken] at isFree
  exact isFree

theorem undisturbed_badgeCalls :
    LabelledRun.Along Call.step
      (fun state call => call.On ⟨[badges]⟩ ∧ call.Undisturbed state)
      (.begin ∅) badgeCalls := by
  have onCatalog : ∀ call ∈ badgeCalls, call.On ⟨[badges]⟩ := by
    simp [badgeCalls, Call.On, plain]
  have unstamped : badges.SlotsUnstamped := TableDef.slotsUnstamped_of_unmanaged rfl
  refine LabelledRun.along_of_taken (fun count call isCall state taken =>
    ⟨onCatalog call (List.mem_of_getElem? isCall), ?_⟩)
  obtain ⟨inCalls, rfl⟩ := List.getElem?_eq_some_iff.mp isCall
  clear isCall
  change count < 6 at inCalls
  interval_cases count
  · refine ⟨?_, fun _ => unstamped⟩
    simp [KeyedWrite.rows, Row.Fits, Value.fits]
  · exact undisturbed_of_deletionFree (deletionFree_badges 1 1 (by decide) state taken)
  · exact undisturbed_of_deletionFree (deletionFree_badges 2 2 (by decide) state taken)
  · trivial
  · refine ⟨?_, fun _ => unstamped⟩
    simp [KeyedWrite.rows, Row.Fits, Value.fits]
  · exact rfl

/-- The badges are indexed, retired, restored and purged. -/
theorem rowsIndexed_badges :
    ∃ state, LabelledRun Call.step (.begin ∅) badgeCalls state ∧
      RowsIndexed ⟨[badges]⟩ state.transaction.get := by
  have made : Catalog.fromTables [badges] = .ok ⟨[badges]⟩ := rfl
  have taken : (badgeCalls.foldlM Call.step (.begin ∅)).isSome = true := by
    decide +kernel
  have run : LabelledRun Call.step (.begin ∅) badgeCalls
      ((badgeCalls.foldlM Call.step (.begin ∅)).get taken) :=
    .of_foldlM (Option.eq_some_of_isSome _)
  exact ⟨_, run, rowsIndexed_of_calls built_badges made staysValid_badges
    undisturbed_badgeCalls run⟩

/-- Two badges of one code go in the same instant. -/
def retiredTogether : List Call := [.write (.plain ⟨[badges]⟩) .superuser badges
      (.keyed (.insert ⟨[.i64 1, .i64 7, .null]⟩)),
    .write (.plain ⟨[badges]⟩) .superuser badges
      (.keyed (.insert ⟨[.i64 2, .i64 7, .null]⟩)),
    .write (.plain ⟨[badges]⟩) .superuser badges (.delete [.i64 1]),
    .write (.plain ⟨[badges]⟩) .superuser badges (.delete [.i64 2])]

/-- Two rows of a store that are retired with one code. -/
def holdsTwice (store : Bytes → Option Bytes) : Bool :=
  store (Keys.rowKey badges [.i64 1]) ==
      some (encodeBody badges ⟨[.i64 1, .i64 7, .i64 0]⟩) &&
    store (Keys.rowKey badges [.i64 2]) ==
      some (encodeBody badges ⟨[.i64 2, .i64 7, .i64 0]⟩)

theorem not_rowsIndexed_of_holdsTwice
    {store : Bytes → Option Bytes}
    (twice : holdsTwice store = true) :
    ¬RowsIndexed ⟨[badges]⟩ store := by
  intro indexed
  obtain ⟨first, second⟩ := (Bool.and_eq_true _ _).mp twice
  have storedRow (id : Int64) (held : store (Keys.rowKey badges [.i64 id]) =
        some (encodeBody badges ⟨[.i64 id, .i64 7, .i64 0]⟩)) :
      StoredRow store badges ⟨[.i64 id, .i64 7, .i64 0]⟩ := by
    refine ⟨rfl, ?_, held⟩
    simp [Row.Fits, Value.fits]
  have sameKey := indexed.slots badges (List.mem_singleton.mpr rfl) _ _
    (storedRow 1 (beq_iff_eq.mp first)) (storedRow 2 (beq_iff_eq.mp second))
    badgesCode (List.mem_singleton.mpr rfl) _ (List.mem_singleton.mpr rfl) _
    (List.mem_singleton.mpr rfl) rfl rfl
  revert sameKey
  decide

end

/--
Two badges of one code that are retired in the same instant take one slot, and
nothing looks whether it is free.
-/
theorem not_rowsIndexed_retiredTogether :
    ¬∀ (_ : Platform) (tables : List TableDef), (∀ table ∈ tables,
        ∃ builder : TableBuilder, builder.build = .ok table) →
      ∀ catalog, Catalog.fromTables tables = .ok catalog →
        ∀ calls : List Call, (∀ call ∈ calls, call.On catalog) →
          ∀ state, LabelledRun Call.step (.begin ∅) calls state →
            RowsIndexed catalog state.transaction.get := by
  intro always
  let _ : Platform := asciiPlatform
  have onCatalog : ∀ call ∈ retiredTogether, call.On ⟨[badges]⟩ := by
    simp [retiredTogether, Call.On, plain]
  have twice : holdsTwice ((retiredTogether.foldlM Call.step (.begin ∅)).get
      (by decide)).transaction.get = true := by
    decide
  have run : LabelledRun Call.step (.begin ∅) retiredTogether
      ((retiredTogether.foldlM Call.step (.begin ∅)).get (by decide)) :=
    .of_foldlM (Option.eq_some_of_isSome _)
  exact not_rowsIndexed_of_holdsTwice twice (always asciiPlatform [badges]
    built_badges ⟨[badges]⟩ rfl retiredTogether onCatalog _ run)

end SlateOrm
