import SlateOrm.UndisturbedWrites

namespace SlateOrm

open List RecordTransaction Keys RecordState

/-!
# Index consistency over runs

A caller works through a sequence of writes, commits now and then, and goes on
with what is committed.  While every row it writes can be kept in full, the
index space holds exactly the entries of the stored rows after each write.
-/

/-! ## Stored rows and their entries -/

/-- A key of the index space. -/
def Keys.InIndexSpace (key : Bytes) : Prop := ∃ rest, key = INDEX_SPACE :: rest

theorem Keys.OfIndex.inIndexSpace
    {id : IndexId} {key : Bytes} (ofIndex : OfIndex id key) :
    InIndexSpace key := by
  obtain ⟨rest, rfl⟩ := ofIndex
  exact ⟨_, rfl⟩

theorem Keys.not_inIndexSpace_rowKey
    (table : TableDef) (primaryKey : List Value) :
    ¬InIndexSpace (rowKey table primaryKey) := by
  rintro ⟨rest, isKey⟩
  have sameSpace : some ROW_SPACE = some INDEX_SPACE := congrArg head? isKey
  exact absurd sameSpace (by decide)

section

variable [Platform]

/-- A valid row that a store keeps in full under its key. -/
structure StoredRow (store : Bytes → Option Bytes) (table : TableDef)
    (row : Row) : Prop where
  valid : row.validate table = .ok ()
  fits : row.Fits
  held : store (Keys.rowKey table (row.primaryKeyValues table)) =
    some (encodeBody table row)

/-- An entry that a stored row has in an index that admits it. -/
def Listed (catalog : Catalog) (store : Bytes → Option Bytes)
    (key value : Bytes) : Prop :=
  ∃ table ∈ catalog.tables, ∃ row, StoredRow store table row ∧
    ∃ index ∈ table.indexes, ∃ entry ∈ admittedEntries table index row,
      entry.key = key ∧ entry.value = value

/-- The index space is that of the stored rows. -/
structure IndexesExact (catalog : Catalog)
    (store : Bytes → Option Bytes) : Prop where
  /-- What a table's range holds is a row under its key. -/
  rows : ∀ table ∈ catalog.tables, ∀ key body,
    Keys.tablePrefix table <+: key → store key = some body →
      ∃ row, StoredRow store table row ∧
        key = Keys.rowKey table (row.primaryKeyValues table)
  /-- No entry is missing, and none is dangling. -/
  entries : ∀ key value, Keys.InIndexSpace key →
    (store key = some value ↔ Listed catalog store key value)
  /-- An entry leads to the row that it was computed from. -/
  owner : ∀ table ∈ catalog.tables, ∀ row, StoredRow store table row →
    ∀ index ∈ table.indexes, ∀ entry ∈ admittedEntries table index row,
      ∀ indexed primaryKey, Keys.decodeIndexEntry table index entry.key entry.value =
          .ok (indexed, primaryKey) →
        Keys.rowKey table primaryKey = Keys.rowKey table (row.primaryKeyValues table)
  /-- A unique slot is held by at most one row. -/
  slots : ∀ table ∈ catalog.tables, ∀ row other,
    StoredRow store table row → StoredRow store table other →
    ∀ index ∈ table.indexes, ∀ entry ∈ admittedEntries table index row,
        ∀ entry' ∈ admittedEntries table index other,
          entry.enforcesUniqueness = true → entry.key = entry'.key →
            Keys.rowKey table (row.primaryKeyValues table) =
              Keys.rowKey table (other.primaryKeyValues table)

variable
  {catalog : Catalog}
  {wellFormed : catalog.WellFormed}
  {store : Bytes → Option Bytes}

/-- A stored row, as a row of its catalog. -/
def StoredRow.toCatalogRow {table : TableDef} {row : Row}
    (stored : StoredRow store table row)
    (inCatalog : table ∈ catalog.tables) :
    CatalogRow catalog :=
  ⟨table, row, inCatalog, stored.valid, stored.fits⟩

theorem StoredRow.of_stored
    {record : CatalogRow catalog}
    (stored : (catalog.layout wellFormed).Stored store record) :
    StoredRow store record.table record.row :=
  ⟨record.valid, record.fits, stored⟩

/-- In a consistent store the index space is that of the stored rows. -/
theorem indexesExact_of_consistent
    (consistent : (catalog.layout wellFormed).Consistent store) :
    IndexesExact catalog store := by
  refine ⟨?_, ?_, ?_, ?_⟩
  · intro table inCatalog key body begins found
    obtain ⟨rest, isKey⟩ := begins
    obtain ⟨record, stored, image⟩ := (consistent key body).mp found
    rcases image with ⟨isHome, _⟩ | ⟨index, _, entry, member, isEntry, _⟩
    · have isHome' : key = record.key := isHome
      have sameTable : record.table = table := by
        rw [← isKey] at isHome'
        exact wellFormed.tableIds _ record.inCatalog _ inCatalog
          (header_append_inj isHome').2.1.symm
      subst sameTable
      exact ⟨record.row, .of_stored stored, isHome'⟩
    · obtain ⟨bytes, ofIndex⟩ := ofIndex_of_mem_admittedEntries member
      rw [isEntry, ← isKey] at ofIndex
      exact absurd (header_append_inj ofIndex).1 (by decide)
  · intro key value inSpace
    constructor
    · intro found
      obtain ⟨record, stored, image⟩ := (consistent key value).mp found
      rcases image with ⟨isHome, _⟩ | ⟨index, declared, entry, member, isKey, isValue⟩
      · rw [isHome] at inSpace
        exact absurd inSpace (not_inIndexSpace_rowKey _ _)
      · exact ⟨record.table, record.inCatalog, record.row, .of_stored stored,
          index, declared, entry, member, isKey, isValue⟩
    · rintro ⟨table, inCatalog, row, stored, index, declared, entry, member,
        isKey, isValue⟩
      have held : (catalog.layout wellFormed).Stored store
          (stored.toCatalogRow inCatalog) :=
        stored.held
      have indexed : (stored.toCatalogRow inCatalog).Indexed key value :=
        ⟨index, declared, entry, member, isKey, isValue⟩
      exact consistent.lookup held (.inr indexed)
  · intro table inCatalog row stored index declared entry member indexed
      primaryKey decodes
    have tableWellFormed := wellFormed.tables table inCatalog
    obtain ⟨_, values, inSets, rfl⟩ := mem_admittedEntries.mp member
    obtain ⟨_, sameKey⟩ := decodeIndexEntry_spec tableWellFormed stored.fits
      (length_of_mem_keySets (tableWellFormed.indexes index declared) inSets) decodes
    rw [rowKey, rowKey, encode, encode, encodeWith_congr sameKey]
  · intro table inCatalog row other stored stored' index declared entry
      member entry' member' _ sameKey
    have held : (catalog.layout wellFormed).Stored store
        (stored.toCatalogRow inCatalog) :=
      stored.held
    have held' : (catalog.layout wellFormed).Stored store
        (stored'.toCatalogRow inCatalog) :=
      stored'.held
    have indexed : (stored.toCatalogRow inCatalog).Indexed entry.key
        entry.value :=
      ⟨index, declared, entry, member, rfl, rfl⟩
    have indexed' : (stored'.toCatalogRow inCatalog).Indexed entry.key
        entry'.value :=
      ⟨index, declared, entry', member', sameKey.symm, rfl⟩
    exact consistent.home_unique held held' (.inr indexed) (.inr indexed')

/-! ## Runs of a single caller -/

/-- A call of a caller that has a store to itself. -/
inductive Call where
  | write (records : RecordTransaction) (context : SecurityContext)
      (table : TableDef) (write : RecordWrite)
  /-- Commit, and go on in a new transaction. -/
  | commit

namespace Call

/-- A call goes on when it returns `Ok`. -/
def step (state : RecordState) : Call → Option RecordState
  | write records context table asked =>
      match (asked.operation records context table).run state with
      | (.ok _, after) => some after
      | (.error _, _) => none
  | commit =>
      some (.begin (Overlay.apply state.transaction.base state.transaction.pending))

/-- A call on a table of a catalog, or a commit. -/
def On (catalog : Catalog) : Call → Prop
  | write records _ table _ => records.catalog = catalog ∧ table ∈ catalog.tables
  | commit => True

/-- A call that names rows of a table of a catalog, or a commit. -/
def Names (catalog : Catalog) : Call → Prop
  | write records _ table asked =>
      records.catalog = catalog ∧ table ∈ catalog.tables ∧ asked.Named
  | commit => True

/-- The rows that a call is given to be stored. -/
def rows : Call → List Row
  | write _ _ _ asked => asked.rows
  | commit => []

end Call

theorem Call.get_commit
    {state after : RecordState}
    (stepped : commit.step state = some after)
    (key : Bytes) :
    after.transaction.get key = state.transaction.get key := by
  cases stepped
  rw [get_begin, Overlay.getElem?_apply, MemoryStore.Transaction.get]
  cases state.transaction.pending[key]? with
  | none
  | some written => rfl

/-- A state that keeps a catalog's rows and their entries, and nothing else. -/
structure Catalog.KeepsOnly {catalog : Catalog}
    (wellFormed : catalog.WellFormed) (state : RecordState) : Prop where
  keeps : catalog.Keeps wellFormed state
  only : ∀ key, ¬catalog.Owns key → state.transaction.get key = none

namespace Catalog.KeepsOnly

omit [Platform] in
theorem view_eq
    {store : Bytes → Option Bytes}
    (only : ∀ key, ¬catalog.Owns key → store key = none) :
    catalog.view store = store := by
  funext key
  by_cases owns : catalog.Owns key
  · exact view_of_owns owns _
  · rw [view, if_neg owns, only key owns]

theorem consistent
    {state : RecordState} (keepsOnly : KeepsOnly wellFormed state) :
    (catalog.layout wellFormed).Consistent state.transaction.get := by
  have keeps := keepsOnly.keeps
  rw [Keeps, view_eq keepsOnly.only] at keeps
  exact keeps

theorem of_consistent
    {state : RecordState}
    (consistent : (catalog.layout wellFormed).Consistent state.transaction.get)
    (only : ∀ key, ¬catalog.Owns key → state.transaction.get key = none) :
    KeepsOnly wellFormed state := by
  refine ⟨?_, only⟩
  rw [Keeps, view_eq only]
  exact consistent

variable {state after : RecordState} {records : RecordTransaction}
  {context : SecurityContext}

theorem congr
    (keepsOnly : KeepsOnly wellFormed state)
    (same : ∀ key, after.transaction.get key = state.transaction.get key) :
    KeepsOnly wellFormed after := by
  have sameView : after.transaction.get = state.transaction.get := funext same
  refine ⟨?_, ?_⟩
  · rw [Keeps, sameView]
    exact keepsOnly.keeps
  · rw [sameView]
    exact keepsOnly.only

theorem of_empty : KeepsOnly wellFormed (.begin ∅) := by
  have nothing : ∀ key, (begin ∅).transaction.get key = none := by
    intro key
    rw [get_begin]
    exact Std.ExtTreeMap.getElem?_empty
  have isEmpty : catalog.view (begin ∅).transaction.get = fun _ => none := by
    funext key
    rw [view]
    split
    · exact nothing key
    · rfl
  refine ⟨?_, fun key _ => nothing key⟩
  rw [Keeps, isEmpty]
  exact Layout.consistent_empty _

theorem undisturbed
    {wellFormed : records.catalog.WellFormed}
    {table : TableDef}
    (staysValid : ∀ table ∈ records.catalog.tables, table.StaysValid)
    (inCatalog : table ∈ records.catalog.tables)
    {write : RecordWrite}
    (undisturbed : write.Undisturbed records context table state)
    (before : KeepsOnly wellFormed state)
    (ran : (write.operation records context table).run state = (.ok (), after)) :
    KeepsOnly wellFormed after := by
  refine ⟨RecordWrite.keeps staysValid inCatalog undisturbed before.keeps ran,
    fun key notOwned => ?_⟩
  have untouched := (write.touches context inCatalog).get_of_not_owns notOwned state
  rw [ran] at untouched
  exact untouched.trans (before.only key notOwned)

theorem write
    {wellFormed : records.catalog.WellFormed}
    {table : TableDef} (unmanaged : records.catalog.Unmanaged)
    (inCatalog : table ∈ records.catalog.tables)
    {write : RecordWrite} (named : write.Named)
    (fits : ∀ row ∈ write.rows, row.Fits)
    (before : KeepsOnly wellFormed state)
    (ran : (write.operation records context table).run state = (.ok (), after)) :
    KeepsOnly wellFormed after := by
  have staysValid : ∀ table ∈ records.catalog.tables, table.StaysValid := by
    intro owner isOwner
    obtain ⟨notManaged, erases⟩ := unmanaged owner isOwner
    exact TableDef.staysValid_of_unfilled notManaged erases
  exact before.undisturbed staysValid inCatalog
    (RecordWrite.undisturbed_of_named unmanaged inCatalog named fits state) ran

theorem call
    (unmanaged : catalog.Unmanaged) {call : Call} (names : call.Names catalog)
    (fits : ∀ row ∈ call.rows, row.Fits)
    (before : KeepsOnly wellFormed state)
    (stepped : call.step state = some after) :
    KeepsOnly wellFormed after := by
  cases call with
  | write records context table write =>
      obtain ⟨rfl, inCatalog, named⟩ := names
      rw [Call.step] at stepped
      split at stepped
      · next ran =>
          cases stepped
          exact before.write unmanaged inCatalog named fits ran
      · cases stepped
  | commit => exact before.congr (Call.get_commit stepped)

end Catalog.KeepsOnly

theorem Catalog.keepsOnly_of_calls
    {catalog : Catalog}
    (wellFormed : catalog.WellFormed)
    (unmanaged : catalog.Unmanaged) {calls : List Call}
    (names : ∀ call ∈ calls, call.Names catalog)
    (fits : ∀ call ∈ calls, ∀ row ∈ call.rows, row.Fits)
    {state : RecordState} (run : LabelledRun Call.step (.begin ∅) calls state) :
    Catalog.KeepsOnly wellFormed state := by
  refine run.invariant_of_labels (Catalog.KeepsOnly wellFormed) ?_
    Catalog.KeepsOnly.of_empty
  intro call member before after stepped keepsBefore
  exact keepsBefore.call unmanaged (names call member) (fits call member) stepped

/--
Whatever writes of named rows a caller makes from an empty store, while every
row can be kept in full the index space is that of the stored rows.
-/
theorem indexesExact_of_calls
    {tables : List TableDef}
    (built : ∀ table ∈ tables, ∃ builder : TableBuilder, builder.build = .ok table)
    {catalog : Catalog}
    (made : Catalog.fromTables tables = .ok catalog)
    (unmanaged : catalog.Unmanaged) {calls : List Call}
    (names : ∀ call ∈ calls, call.Names catalog)
    (fits : ∀ call ∈ calls, ∀ row ∈ call.rows, row.Fits)
    {state : RecordState} (run : LabelledRun Call.step (.begin ∅) calls state) :
    IndexesExact catalog state.transaction.get := by
  have wellFormed := Catalog.wellFormed_of_fromTables built made
  exact indexesExact_of_consistent (Catalog.keepsOnly_of_calls wellFormed
    unmanaged names fits run).consistent

end

/-! ## Accounts -/

section

local instance ledgerPlatform : Platform := asciiPlatform

/-- Two accounts are made, one changes its phone, and the other goes. -/
def accountCalls : List Call :=
  [.write (.plain ⟨[accounts]⟩) .superuser accounts (.keyed (.insertMany
        [⟨[.i64 1, .i64 10, .i64 20]⟩, ⟨[.i64 2, .i64 11, .i64 21]⟩])),
    .commit,
    .write (.plain ⟨[accounts]⟩) .superuser accounts
      (.keyed (.update ⟨[.i64 1, .i64 12, .i64 20]⟩)),
    .write (.plain ⟨[accounts]⟩) .superuser accounts (.delete [.i64 2])]

theorem built_accounts :
    ∀ table ∈ [accounts], ∃ builder : TableBuilder, builder.build = .ok table := by
  intro table member
  rw [mem_singleton.mp member]
  exact ⟨accountsBuilder, rfl⟩

theorem unmanaged_accounts : Catalog.Unmanaged ⟨[accounts]⟩ := by
  intro table member
  rw [mem_singleton.mp member]
  exact ⟨rfl, rfl⟩

/-- The phones and badges are indexed as the accounts have them. -/
theorem indexesExact_accounts :
    ∃ state, LabelledRun Call.step (.begin ∅) accountCalls state ∧
      IndexesExact ⟨[accounts]⟩ state.transaction.get := by
  have made : Catalog.fromTables [accounts] = .ok ⟨[accounts]⟩ := rfl
  have names : ∀ call ∈ accountCalls, call.Names ⟨[accounts]⟩ := by
    simp [accountCalls, Call.Names, RecordWrite.Named, plain]
  have fits : ∀ call ∈ accountCalls, ∀ row ∈ call.rows, row.Fits := by
    simp [accountCalls, Call.rows, RecordWrite.rows, KeyedWrite.rows,
      Row.Fits, Value.fits]
  have taken : (accountCalls.foldlM Call.step (.begin ∅)).isSome = true := by
    decide +kernel
  have run : LabelledRun Call.step (.begin ∅) accountCalls
      ((accountCalls.foldlM Call.step (.begin ∅)).get taken) :=
    .of_foldlM (Option.eq_some_of_isSome _)
  exact ⟨_, run, indexesExact_of_calls built_accounts made
    unmanaged_accounts names fits run⟩

/-! ## A vector that is cut -/

/-- A table of vectors, with an index of those that were left untrimmed. -/
def vectorsBuilder : TableBuilder where
  id := 1
  name := "vectors"
  columns := [
    { name := "id", type := .i64 },
    { name := "raw", type := .vector },
    { name := "trimmed", type := .vector }]
  primaryKey := ["id"]
  indexes := [
    { id := 1
      name := "vectors_untrimmed"
      columns := [("id", .asc)]
      predicate := some (.expr (.compareColumns 1 .eq 2)) }]

/-- The index of the vectors that were left untrimmed. -/
def untrimmed : IndexDef := ⟨1, "vectors_untrimmed", [⟨0, .asc⟩], false,
    some (.expr (.compareColumns 1 .eq 2)), none, false⟩

/-- The table that the builder makes. -/
def vectors : TableDef where
  id := 1
  name := "vectors"
  columns := vectorsBuilder.columns.map ColumnSpec.toColumn
  primaryKey := [0]
  bodyColumns := [1, 2]
  storedColumns := [1, 2]
  indexes := [untrimmed]
  checks := []
  foreignKeys := []
  tenantColumn := none
  softDelete := none
  schemaVersion := 0

theorem built_vectors :
    ∀ table ∈ [vectors], ∃ builder : TableBuilder, builder.build = .ok table := by
  intro table member
  rw [mem_singleton.mp member]
  exact ⟨vectorsBuilder, rfl⟩

theorem unmanaged_vectors : Catalog.Unmanaged ⟨[vectors]⟩ := by
  intro table member
  rw [mem_singleton.mp member]
  exact ⟨rfl, rfl⟩

/-- A row of the table. -/
def vectorsRow (raw trimmed : List F32) : Row :=
  ⟨[.i64 1, .vector raw, .vector trimmed]⟩

/-- As many zeros as a count can describe. -/
def fullZeros : List F32 := List.replicate u32Max 0

/-- One zero more than a count can describe. -/
def overlongZeros : List F32 := List.replicate (u32Max + 1) 0

theorem admits_untrimmed
    (raw trimmed : List F32) :
    untrimmed.admits (vectorsRow raw trimmed) =
      CmpOp.eq.apply ((Value.vector raw).cmp (.vector trimmed)) := by
  have isTruth : untrimmed.admits (vectorsRow raw trimmed) =
      ((Predicate.expr (.compareColumns 1 .eq 2)).truth
        (vectorsRow raw trimmed) == some true) :=
    rfl
  have evaluates : (Expr.compareColumns 1 .eq 2).evaluate (vectorsRow raw trimmed) =
      Truth.from (CmpOp.eq.apply ((Value.vector raw).cmp (.vector trimmed))) :=
    rfl
  rw [isTruth, Predicate.truth]
  simp only [evaluates]
  cases CmpOp.eq.apply ((Value.vector raw).cmp (.vector trimmed)) with
  | true
  | false => rfl

theorem admits_overlong :
    untrimmed.admits (vectorsRow overlongZeros fullZeros) = false := by
  have lengths : compare overlongZeros.length fullZeros.length = .gt := by
    rw [overlongZeros, fullZeros, length_replicate, length_replicate]
    exact Nat.compare_eq_gt.mpr (Nat.lt_succ_self _)
  rw [admits_untrimmed, Value.cmp_vector, Value.cmpVector, lengths]
  rfl

theorem admits_full :
    untrimmed.admits (vectorsRow fullZeros fullZeros) = true := by
  rw [admits_untrimmed, (Value.cmp_eq_iff_canonical _ _).mpr rfl]
  rfl

theorem encodeBody_overlong :
    encodeBody vectors (vectorsRow overlongZeros fullZeros) =
      encodeBody vectors (vectorsRow fullZeros fullZeros) := by
  have sameCut : overlongZeros.take u32Max = fullZeros.take u32Max := by
    rw [overlongZeros, fullZeros, take_replicate, take_replicate]
    simp
  have sameBytes : encode [.vector overlongZeros, .vector fullZeros] =
        encode [.vector fullZeros, .vector fullZeros] := by
    simp only [encode, encodeWith, headD_nil, tail_nil, encodeValue_vector, sameCut]
  exact congrArg (_ ++ ·) sameBytes

theorem rowChanges_overlong :
    rowChanges vectors (vectorsRow overlongZeros fullZeros) none =
      [(rowKey vectors [.i64 1],
        some (encodeBody vectors (vectorsRow fullZeros fullZeros)))] := by
  have noEntries : indexChanges vectors
      (vectorsRow overlongZeros fullZeros) none untrimmed = [] := by
    have none_ : admittedEntries vectors untrimmed
        (vectorsRow overlongZeros fullZeros) = [] := by
      rw [admittedEntries, admits_overlong]
      rfl
    rw [indexChanges, addedEntries, none_]
    rfl
  have isRow : vectors.indexes.flatMap (indexChanges vectors
      (vectorsRow overlongZeros fullZeros) none) = [] := by
    rw [show vectors.indexes = [untrimmed] from rfl, flatMap_cons, noEntries]
    rfl
  rw [rowChanges, isRow, encodeBody_overlong]
  rfl

theorem storedRow_full
    {store : Bytes → Option Bytes}
    (held : store (rowKey vectors [.i64 1]) =
      some (encodeBody vectors (vectorsRow fullZeros fullZeros))) :
    StoredRow store vectors (vectorsRow fullZeros fullZeros) := by
  have valid : ∀ raw trimmed, (vectorsRow raw trimmed).validate vectors = .ok () :=
    fun _ _ => rfl
  have fits : (Value.vector fullZeros).fits = true := by
    rw [Value.fits, fullZeros, length_replicate]
    exact decide_eq_true (Nat.le_refl _)
  refine ⟨valid _ _, ?_, held⟩
  intro value member
  rw [vectorsRow] at member
  rcases mem_cons.mp member with rfl | member
  · rfl
  · rcases mem_cons.mp member with rfl | member
    · exact fits
    · rw [mem_singleton.mp member]
      exact fits

theorem mem_admittedEntries_full :
    indexEntry vectors untrimmed [.i64 1] [.i64 1] ∈
      admittedEntries vectors untrimmed (vectorsRow fullZeros fullZeros) := by
  have entries : ∀ raw trimmed, entriesFor vectors untrimmed (vectorsRow raw trimmed) =
        [indexEntry vectors untrimmed [.i64 1] [.i64 1]] :=
    fun _ _ => rfl
  rw [admittedEntries, admits_full, if_pos rfl, entries]
  exact mem_singleton.mpr rfl

/-- What inserting the overlong vector leaves is not exact. -/
theorem not_indexesExact_cut :
    ¬IndexesExact ⟨[vectors]⟩ ((begin ∅).changed (rowChanges vectors
        (vectorsRow overlongZeros fullZeros) none)).transaction.get := by
  intro exact_
  let state := (begin ∅).changed (rowChanges vectors
      (vectorsRow overlongZeros fullZeros) none)
  -- The row that is stored has the full vector, which the index admits.
  have held : state.transaction.get (rowKey vectors [.i64 1]) =
      some (encodeBody vectors (vectorsRow fullZeros fullZeros)) := by
    rw [get_changed, rowChanges_overlong]
    exact congrArg (Option.getD · _) (Overlay.lastWrite_of_mem
      (mem_singleton.mpr rfl) (fun change member _ => by
        rw [mem_singleton.mp member]))
  have stored := storedRow_full held
  let entry := indexEntry vectors untrimmed [.i64 1] [.i64 1]
  have member := mem_admittedEntries_full
  have ofIndex : OfIndex untrimmed.id entry.key := ofIndex_of_mem_admittedEntries member
  have found : state.transaction.get entry.key = some entry.value :=
    (exact_.entries entry.key entry.value ofIndex.inIndexSpace).mpr
      ⟨vectors, mem_singleton.mpr rfl, _, stored, untrimmed,
        mem_singleton.mpr rfl, entry, member, rfl, rfl⟩
  have absent : state.transaction.get entry.key = none := by
    rw [get_changed_of_absent, get_begin]
    · exact Std.ExtTreeMap.getElem?_empty
    · rw [rowChanges_overlong]
      intro change isChange sameKey
      rw [mem_singleton.mp isChange] at sameKey
      rw [← sameKey] at ofIndex
      exact not_ofIndex_rowKey _ _ _ ofIndex
  rw [absent] at found
  cases found

/-- Inserting a vector into an empty store succeeds. -/
theorem run_insert_vectors
    (raw trimmed : List F32) :
    ((plain ⟨[vectors]⟩).insert .superuser vectors
        (vectorsRow raw trimmed)).run (.begin ∅) =
      (.ok (), (begin ∅).changed (rowChanges vectors (vectorsRow raw trimmed)
          none)) := by
  have checked : (plain ⟨[vectors]⟩).checkInsert .superuser
      vectors (vectorsRow raw trimmed) (begin ∅).transaction =
      .ok () :=
    rfl
  have passes : refusedAfter vectors (vectorsRow raw trimmed) none (begin ∅).transaction
      [untrimmed] = none := by
    have noSlots : slotRefusal vectors
        (vectorsRow raw trimmed) none (begin ∅).transaction
        untrimmed = none := by
      refine findSome?_eq_none_iff.mpr (fun entry member => ?_)
      rw [if_neg]
      intro enforces
      have isUnique := enforcesUniqueness_of_mem (mem_filter.mp member).1 enforces
      cases isUnique
    rw [refusedAfter, noSlots]
    rfl
  have built : vectorsBuilder.build = .ok vectors := rfl
  have wellFormed := TableBuilder.build_wellFormed built
  rw [RecordTransaction.insert, Write.run_reading_bind_of_ok checked,
    run_writeRow wellFormed]
  dsimp only
  have isRow : (plain ⟨[vectors]⟩).stamped vectors
      (vectorsRow raw trimmed) none (begin ∅).readings =
      vectorsRow raw trimmed :=
    rfl
  rw [isRow, show vectors.indexes = [untrimmed] from rfl, passes]
  rfl

theorem step_insert_vectors
    (raw trimmed : List F32) :
    Call.step (.begin ∅) (.write (.plain ⟨[vectors]⟩) .superuser vectors
          (.keyed (.insert (vectorsRow raw trimmed)))) =
      some ((begin ∅).changed (rowChanges vectors (vectorsRow raw trimmed) none)) := by
  have ran := run_insert_vectors raw trimmed
  rw [Call.step]
  simp only [RecordWrite.operation, KeyedWrite.operation, ran]

end

/--
A vector with more elements than a count can describe is stored cut, and the
index that would take the stored row does not hold it.
-/
theorem not_indexesExact_overlong :
    ¬∀ (_ : Platform) (tables : List TableDef), (∀ table ∈ tables,
        ∃ builder : TableBuilder, builder.build = .ok table) →
      ∀ catalog, Catalog.fromTables tables = .ok catalog → catalog.Unmanaged →
        ∀ calls : List Call, (∀ call ∈ calls, call.Names catalog) →
          ∀ state, LabelledRun Call.step (.begin ∅) calls state →
            IndexesExact catalog state.transaction.get := by
  intro always
  let _ : Platform := asciiPlatform
  let calls : List Call := [.write (.plain ⟨[vectors]⟩) .superuser vectors
      (.keyed (.insert (vectorsRow overlongZeros fullZeros)))]
  have names : ∀ call ∈ calls, call.Names ⟨[vectors]⟩ := by
    intro call member
    rw [mem_singleton.mp member]
    exact ⟨rfl, mem_singleton.mpr rfl, trivial⟩
  have stepped := step_insert_vectors overlongZeros fullZeros
  exact not_indexesExact_cut (always asciiPlatform [vectors]
    built_vectors ⟨[vectors]⟩ rfl unmanaged_vectors calls names _ (.cons stepped (.nil _)))

end SlateOrm
