import SlateOrm.CatalogWrites
import SlateOrm.FilledColumns
import SlateOrm.RowChanges

namespace SlateOrm

open List Keys Write Overlay RecordState

/-!
# Index consistency

Every write that names its rows by their primary keys leaves a consistent store
consistent: a single row's slots are checked as they are taken, a batch's before
any row of it is written, and a deletion erases rows that are stored, each once.
So a run of such writes from an empty store leaves the entries of the stored
rows and no others.
-/

variable [Platform]

/-- A state keeps exactly the rows of a catalog and their entries. -/
def Catalog.Keeps {catalog : Catalog} (wellFormed : catalog.WellFormed)
    (state : RecordState) : Prop :=
  (catalog.layout wellFormed).Consistent (catalog.view state.transaction.get)

namespace RecordTransaction

variable
  {catalog : Catalog}
  {wellFormed : catalog.WellFormed}

/-! ## One row -/

variable {previous : Option Row} {table : TableDef} {row : Row}
  {new : CatalogRow catalog} {state after : RecordState}
  {records : RecordTransaction}

theorem owns_of_mem_rowChanges
    (inCatalog : table ∈ catalog.tables)
    {change : Change}
    (member : change ∈ rowChanges table row previous) :
    catalog.Owns change.1 := by
  rcases mem_append.mp member with inIndexes | isRow
  · obtain ⟨index, declared, inChanges⟩ := mem_flatMap.mp inIndexes
    exact Catalog.owns_of_ofIndex inCatalog declared
      (ofIndex_of_mem_indexChanges inChanges)
  · rw [mem_singleton.mp isRow]
    exact Catalog.owns_rowKey inCatalog _

theorem owns_of_mem_eraseChanges
    (inCatalog : table ∈ catalog.tables)
    {change : Change}
    (member : change ∈ eraseChanges table row) :
    catalog.Owns change.1 := by
  rcases mem_append.mp member with inIndexes | isRow
  · obtain ⟨index, declared, inEntries⟩ := mem_flatMap.mp inIndexes
    obtain ⟨entry, isEntry, rfl⟩ := mem_map.mp inEntries
    exact Catalog.owns_of_ofIndex inCatalog declared
      (ofIndex_of_mem_admittedEntries isEntry)
  · rw [mem_singleton.mp isRow]
    exact Catalog.owns_rowKey inCatalog _

theorem meets_of_read
    {state : RecordState} (keeps : Catalog.Keeps wellFormed state)
    (inCatalog : table ∈ catalog.tables)
    {primaryKey : List Value}
    (read : readRowUnchecked state.transaction table primaryKey = .ok previous)
    (isKey : new.key = rowKey table primaryKey) :
    new.Meets wellFormed (catalog.view state.transaction.get) previous := by
  cases previous with
  | none =>
      have absent := get_of_readRowUnchecked_none read
      rw [← Catalog.view_of_owns (Catalog.owns_rowKey inCatalog _)
        state.transaction.get, ← isKey] at absent
      exact absent
  | some old =>
      obtain ⟨record, stored, _, isHome, isRead⟩ :=
        record_of_readRowUnchecked keeps.comprises inCatalog read
      exact ⟨record, stored, isHome.trans isKey.symm, isRead.same⟩

theorem keeps_rowChanges
    {state : RecordState} (keeps : Catalog.Keeps wellFormed state)
    (meets : new.Meets wellFormed (catalog.view state.transaction.get) previous)
    (free : new.Free wellFormed (catalog.view state.transaction.get)) :
    Catalog.Keeps wellFormed (state.changed (rowChanges new.table new.row previous)) :=
  consistent_replaced keeps (view_changed (fun _ member =>
      owns_of_mem_rowChanges new.inCatalog member) state) meets free

theorem keeps_of_transaction
    (keeps : Catalog.Keeps wellFormed state)
    (same : after.transaction = state.transaction) :
    Catalog.Keeps wellFormed after := by
  rw [Catalog.Keeps, same]
  exact keeps

omit [Platform] in
theorem changed_ticked
    (table : TableDef) (state : RecordState) (changes : List Change) :
    ((ticked table state).changed changes).transaction =
      (state.changed changes).transaction := by
  rw [ticked]
  split
  · rfl
  · rfl

/-- A row that is written takes the place of another, or has one of its own. -/
theorem changed_of_writeRow
    (inCatalog : table ∈ catalog.tables)
    (keeps : Catalog.Keeps wellFormed state)
    (isTable : new.table = table)
    (alike : (records.stamped table row previous
      state.readings).StoredAlike table new.row)
    (meets : new.Meets wellFormed (catalog.view state.transaction.get) previous)
    (written : (records.writeRow table row previous).run state = (.ok (), after)) :
    Catalog.Keeps wellFormed after ∧ after = (ticked table state).changed
        (rowChanges table new.row previous) := by
  have tableWellFormed := wellFormed.tables table inCatalog
  rw [run_writeRow tableWellFormed] at written
  dsimp only at written
  split at written
  · next passes =>
      have free : new.Free wellFormed (catalog.view state.transaction.get) := by
        refine free_of_slots keeps meets ?_
        rw [isTable]
        intro index declared entry isAdded enforces value found
        have isAdded' : entry ∈ addedEntries table
            (records.stamped table row previous state.readings) previous
            index := by
          rw [addedEntries, alike.entries index declared]
          exact isAdded
        have member := (mem_filter.mp isAdded').1
        rw [Catalog.view_of_owns (Catalog.owns_of_ofIndex inCatalog declared
          (ofIndex_of_mem_admittedEntries member))] at found
        exact value_of_checkUnique keeps inCatalog declared member enforces
          (checkUnique_of_refusedAfter passes declared isAdded' enforces) found
      have kept := keeps_rowChanges keeps meets free
      rw [isTable] at kept
      rw [rowChanges_of_storedAlike alike] at written
      cases written
      exact ⟨keeps_of_transaction kept (changed_ticked table state _), rfl⟩
  · cases written

theorem keeps_writeRow
    (inCatalog : table ∈ catalog.tables)
    (staysValid : table.StaysValid)
    (valid : row.validate table = .ok ())
    (fits : row.Fits) (keeps : Catalog.Keeps wellFormed state)
    (met : ∀ new : CatalogRow catalog,
      new.key = rowKey table (row.primaryKeyValues table) →
        new.Meets wellFormed (catalog.view state.transaction.get) previous)
    (written : (records.writeRow table row previous).run state = (.ok (), after)) :
    Catalog.Keeps wellFormed after := by
  have tableWellFormed := wellFormed.tables table inCatalog
  have fills := (records.stamps_stampsOf table previous state.readings).fills
  let new : CatalogRow catalog :=
    ⟨table, row.refilled (records.stampsOf table previous state.readings),
      inCatalog, staysValid _ _ fills valid, fits.refilled _⟩
  have isKey : new.key = rowKey table (row.primaryKeyValues table) := by
    rw [CatalogRow.key, Row.primaryKeyValues_refilled tableWellFormed fills]
  have same : (records.stamped table row previous state.readings).Same
      new.row := by
    rw [stamped_eq_refilled]
    exact rfl
  exact (changed_of_writeRow inCatalog keeps rfl (same.storedAlike table)
    (met new isKey) written).1

/-! ## A batch -/

section

variable
  {table : TableDef}

variable {entry : Keys.IndexEntry} {index : IndexDef} {rows : List Row}
  {existing : List (Option Row)} {snapshot : Snapshot}
  {records : RecordTransaction} {context : SecurityContext}
  {state after : RecordState}

theorem uniqueSlot_of_mem
    (indexWellFormed : index.WellFormed table.columns)
    {row : Row}
    (member : entry ∈ admittedEntries table index row)
    (enforces : entry.enforcesUniqueness = true) :
    uniqueSlot table index row = some entry := by
  have isUnique := enforcesUniqueness_of_mem member enforces
  have notText : index.text = false := by
    cases isText : index.text with
    | false => rfl
    | true =>
        rw [(indexWellFormed.text isText).1] at isUnique
        cases isUnique
  obtain ⟨admits, values, inSets, rfl⟩ := mem_admittedEntries.mp member
  rw [IndexDef.keySets, notText] at inSets
  rw [mem_singleton.mp inSets] at enforces ⊢
  rw [uniqueSlot, if_pos admits]
  dsimp only
  rw [if_pos enforces]

theorem checkBulkKeys_spec
    {seen : List Bytes}
    (checked : checkBulkKeys table seen rows = .ok ()) :
    (∀ row ∈ rows, row.validate table = .ok () ∧
      rowKey table (row.primaryKeyValues table) ∉ seen) ∧
      rows.Pairwise (fun row other =>
        rowKey table (row.primaryKeyValues table) ≠
          rowKey table (other.primaryKeyValues table)) := by
  induction rows generalizing seen with
  | nil => exact ⟨fun _ member => absurd member not_mem_nil, .nil⟩
  | cons row rest ih =>
      rw [checkBulkKeys] at checked
      obtain ⟨_, valid, checked⟩ := bind_eq_ok.mp checked
      dsimp only at checked
      split at checked
      · cases checked
      · next isNew =>
          obtain ⟨each, apart⟩ := ih checked
          refine ⟨?_, pairwise_cons.mpr ⟨?_, apart⟩⟩
          · intro other member
            rcases mem_cons.mp member with rfl | inRest
            · exact ⟨liftSchema_eq_ok.mp valid, by simpa using isNew⟩
            · obtain ⟨validOther, notSeen⟩ := each other inRest
              exact ⟨validOther, fun seenBefore =>
                notSeen (mem_cons_of_mem _ seenBefore)⟩
          · intro other inRest sameKey
            exact (each other inRest).2 (sameKey ▸ mem_cons_self ..)

/-- The rows of a batch take slots of their own in a unique index. -/
theorem checkBatchSlots_spec
    {slots : List Bytes}
    (checked : checkBatchSlots table index slots rows = .ok ()) :
    (∀ row ∈ rows, ∀ entry, uniqueSlot table index row = some entry →
      entry.key ∉ slots) ∧
      rows.Pairwise (fun row other =>
        ∀ entry entry', uniqueSlot table index row = some entry →
          uniqueSlot table index other = some entry' → entry.key ≠ entry'.key) := by
  induction rows generalizing slots with
  | nil => exact ⟨fun _ member => absurd member not_mem_nil, .nil⟩
  | cons row rest ih =>
      rw [checkBatchSlots] at checked
      cases slot : uniqueSlot table index row with
      | none =>
          rw [slot] at checked
          obtain ⟨each, apart⟩ := ih checked
          refine ⟨?_, pairwise_cons.mpr ⟨?_, apart⟩⟩
          · intro other member entry isSlot
            rcases mem_cons.mp member with rfl | inRest
            · rw [slot] at isSlot
              cases isSlot
            · exact each other inRest entry isSlot
          · intro other _ entry entry' isSlot
            rw [slot] at isSlot
            cases isSlot
      | some taken =>
          rw [slot] at checked
          dsimp only at checked
          split at checked
          · cases checked
          · next isFree =>
              obtain ⟨each, apart⟩ := ih checked
              refine ⟨?_, pairwise_cons.mpr ⟨?_, apart⟩⟩
              · intro other member entry isSlot
                rcases mem_cons.mp member with rfl | inRest
                · rw [slot] at isSlot
                  cases isSlot
                  simpa using isFree
                · exact fun isTaken => each other inRest entry isSlot
                    (mem_cons_of_mem _ isTaken)
              · intro other inRest entry entry' isSlot isSlot' sameKey
                rw [slot] at isSlot
                cases isSlot
                exact each other inRest entry' isSlot' (sameKey ▸ mem_cons_self ..)

omit [Platform] in
theorem readRows_spec
    (read : readRows snapshot table
      (rows.map (fun row => row.primaryKeyValues table)) = .ok existing) :
    existing.length = rows.length ∧ ∀ pair ∈ rows.zip existing,
        readRowUnchecked snapshot table (pair.1.primaryKeyValues table) =
          .ok pair.2 := by
  induction rows generalizing existing with
  | nil =>
      cases read
      exact ⟨rfl, fun _ member => absurd member not_mem_nil⟩
  | cons row rest ih =>
      obtain ⟨first, readFirst, read⟩ := bind_eq_ok.mp read
      obtain ⟨others, readOthers, read⟩ := bind_eq_ok.mp read
      cases read
      obtain ⟨sameLength, each⟩ := ih readOthers
      refine ⟨congrArg (· + 1) sameLength, ?_⟩
      intro pair member
      rw [zip_cons_cons] at member
      rcases mem_cons.mp member with rfl | inRest
      · exact readFirst
      · exact each pair inRest

/-- What a batch that passes its checks consists of. -/
structure Checked (table : TableDef) (rows : List Row)
    (existing : List (Option Row)) (snapshot : Snapshot) : Prop where
  keys : checkBulkKeys table [] rows = .ok ()
  batch : ∀ index ∈ table.indexes, index.unique = true →
    checkBatchSlots table index [] rows = .ok ()
  read : readRows snapshot table
    (rows.map (fun row => row.primaryKeyValues table)) = .ok existing
  slots : checkUniqueSlots table rows existing snapshot = .ok ()

omit [Platform] in
theorem ok_of_guarded
    {β : Type} {guard : Bool} {checked next : Except KernelError β} {result : β}
    (leads : checked = .ok result → next = .ok result)
    (passed : (if guard = true then checked else next) = .ok result) :
    next = .ok result := by
  split at passed
  · exact leads passed
  · exact passed

theorem checked_of_checkMany
    {mode : BulkMode}
    (checked : records.checkMany context table rows mode snapshot = .ok existing) :
    Checked table rows existing snapshot := by
  rw [checkMany] at checked
  dsimp only at checked
  replace checked := ok_of_guarded ok_of_bind checked
  replace checked := ok_of_guarded (fun passed =>
    ok_of_bind (ok_of_bind passed)) checked
  obtain ⟨_, keys, checked⟩ := bind_eq_ok.mp checked
  obtain ⟨_, batch, checked⟩ := bind_eq_ok.mp checked
  replace checked := ok_of_bind checked
  replace checked := ok_of_guarded ok_of_bind checked
  obtain ⟨found, read, checked⟩ := bind_eq_ok.mp checked
  obtain ⟨_, slots, checked⟩ := bind_eq_ok.mp checked
  obtain ⟨_, _, checked⟩ := bind_eq_ok.mp checked
  obtain ⟨_, _, checked⟩ := bind_eq_ok.mp checked
  obtain ⟨_, _, checked⟩ := bind_eq_ok.mp checked
  obtain ⟨_, _, checked⟩ := bind_eq_ok.mp checked
  replace checked := ok_of_bind checked
  cases checked
  refine ⟨keys, ?_, read, slots⟩
  intro index declared isUnique
  exact checkEach_eq_ok batch index (mem_filter.mpr ⟨declared, isUnique⟩)

/-- Rows of a table that share no key. -/
def Apart (table : TableDef) (row other : Row) : Prop :=
  Keys.rowKey table (row.primaryKeyValues table) ≠
      Keys.rowKey table (other.primaryKeyValues table) ∧
    ∀ index ∈ table.indexes, ∀ entry ∈ admittedEntries table index row,
        ∀ entry' ∈ admittedEntries table index other, entry.key ≠ entry'.key

/-- A row that can be written over what is taken for the one under its key. -/
def Placed (wellFormed : catalog.WellFormed)
    (store : Bytes → Option Bytes) (table : TableDef)
    (pair : Row × Option Row) : Prop :=
  ∃ new : CatalogRow catalog, new.table = table ∧ new.row = pair.1 ∧
      new.Meets wellFormed store pair.2 ∧ new.Free wellFormed store

/-- Rows that take slots of their own share no key. -/
theorem apart_of_slots
    (wellFormed : catalog.WellFormed)
    {first second : CatalogRow catalog}
    (sameTable : first.table = second.table)
    (differs : first.key ≠ second.key)
    (slots : ∀ index ∈ first.table.indexes, index.unique = true →
      ∀ entry entry', uniqueSlot first.table index first.row = some entry →
        uniqueSlot first.table index second.row = some entry' →
          entry.key ≠ entry'.key) :
    Apart first.table first.row second.row := by
  refine ⟨?_, ?_⟩
  · rw [CatalogRow.key, CatalogRow.key, ← sameTable] at differs
    exact differs
  · intro index declared entry member entry' member' sameKey
    have tableWellFormed := wellFormed.tables first.table first.inCatalog
    have indexWellFormed := tableWellFormed.indexes index declared
    have sameEnforces := enforcesUniqueness_of_sameKey tableWellFormed
      declared member member' sameKey
    cases enforces : entry.enforcesUniqueness with
    | true =>
        rw [enforces] at sameEnforces
        exact slots index declared (enforcesUniqueness_of_mem member enforces)
          entry entry' (uniqueSlot_of_mem indexWellFormed member enforces)
          (uniqueSlot_of_mem indexWellFormed member' sameEnforces.symm) sameKey
    | false =>
        -- Both entries name their rows' keys.
        rw [enforces] at sameEnforces
        have sameValue : entry.value = entry'.value := by
          rw [value_of_mem_admittedEntries member,
            value_of_mem_admittedEntries member', enforces, ← sameEnforces]
          rfl
        have indexed : first.Indexed entry.key entry.value :=
          ⟨index, declared, entry, member, rfl, rfl⟩
        have indexed' : second.Indexed entry.key entry.value := by
          rw [CatalogRow.Indexed, ← sameTable]
          exact ⟨index, declared, entry', member', sameKey.symm, sameValue.symm⟩
        exact differs (CatalogRow.key_of_indexed wellFormed indexed indexed')

/-- A slot that a row takes newly is one that the batch's check has seen. -/
theorem newSlot_of_mem_addedEntries
    (tableWellFormed : table.WellFormed)
    {row : Row} {previous : Option Row}
    (samePrimaryKey : ∀ old, previous = some old →
      (row.primaryKeyValues table).map Value.canonical =
        (old.primaryKeyValues table).map Value.canonical)
    (declared : index ∈ table.indexes)
    (isAdded : entry ∈ addedEntries table row previous index)
    (enforces : entry.enforcesUniqueness = true) :
    newSlot table index row previous = some (entry, row.primaryKeyValues table) := by
  have indexWellFormed := tableWellFormed.indexes index declared
  obtain ⟨member, isNew⟩ := mem_filter.mp isAdded
  rw [newSlot, uniqueSlot_of_mem indexWellFormed member enforces]
  cases previous with
  | none => rfl
  | some old =>
      dsimp only
      rw [if_neg]
      intro held
      obtain ⟨admits, sameKey⟩ := Bool.and_eq_true_iff.mp held
      have notText : index.text = false := by
        cases isText : index.text with
        | false => rfl
        | true =>
            have isUnique := enforcesUniqueness_of_mem member enforces
            rw [(indexWellFormed.text isText).1] at isUnique
            cases isUnique
      have isOld : indexEntry table index (index.keyValues old)
          (old.primaryKeyValues table) ∈ previousEntries table index (some old) := by
        refine mem_admittedEntries.mpr ⟨admits, index.keyValues old, ?_, rfl⟩
        rw [IndexDef.keySets, notText]
        exact mem_singleton.mpr rfl
      -- The old row has the new row's primary key, so this is its entry.
      have isUnchanged : unchanged entry
          (previousEntries table index (some old)) = true := by
        refine any_eq_true.mpr ⟨_, isOld, ?_⟩
        rw [← indexEntry_congr rfl (samePrimaryKey old rfl)]
        exact sameKey
      rw [isUnchanged] at isNew
      cases isNew

theorem canonical_of_meets
    (wellFormed : catalog.WellFormed)
    {store : Bytes → Option Bytes} {new : CatalogRow catalog} {old : Row}
    (meets : new.Meets wellFormed store (some old)) :
    (new.row.primaryKeyValues new.table).map Value.canonical =
      (old.primaryKeyValues new.table).map Value.canonical := by
  obtain ⟨record, _, isKey, same⟩ := meets
  have sameTable := (CatalogRow.table_of_key wellFormed isKey).1
  have sameHome : record.key =
      rowKey record.table (new.row.primaryKeyValues new.table) := by
    rw [isKey, CatalogRow.key, sameTable]
  rw [canonical_of_rowKey wellFormed sameHome, sameTable]
  exact (same.project new.table.primaryKey).symm

/-- Every row of a batch that passes its checks can be written. -/
theorem placed_of_checked
    (inCatalog : table ∈ catalog.tables)
    (staysValid : table.StaysValid) (unstamped : table.SlotsUnstamped)
    {state : RecordState} (keeps : Catalog.Keeps wellFormed state)
    (fits : ∀ row ∈ rows, row.Fits)
    (checked : Checked table rows existing state.transaction) :
    ∀ pair ∈ rows.zip existing, ∀ stamps, table.Stamps stamps →
      Placed wellFormed (catalog.view state.transaction.get) table
        (pair.1.refilled stamps, pair.2) := by
  intro pair inPairs stamps onWrite
  have tableWellFormed := wellFormed.tables table inCatalog
  have inRows : pair.1 ∈ rows := (of_mem_zip inPairs).1
  obtain ⟨valid, _⟩ := (checkBulkKeys_spec checked.keys).1 pair.1 inRows
  have read := (readRows_spec checked.read).2 pair inPairs
  have sameKey := Row.primaryKeyValues_refilled tableWellFormed onWrite.fills pair.1
  let new : CatalogRow catalog := ⟨table, pair.1.refilled stamps, inCatalog,
      staysValid _ _ onWrite.fills valid, (fits pair.1 inRows).refilled _⟩
  have isKey : new.key = rowKey table (pair.1.primaryKeyValues table) := by
    rw [CatalogRow.key, sameKey]
  have meets : new.Meets wellFormed (catalog.view state.transaction.get)
      pair.2 :=
    meets_of_read keeps inCatalog read isKey
  refine ⟨new, rfl, rfl, meets, free_of_slots keeps meets ?_⟩
  intro index declared entry isAdded enforces value found
  have member := (mem_filter.mp isAdded).1
  have isUnique := enforcesUniqueness_of_mem member enforces
  rw [Catalog.view_of_owns (Catalog.owns_of_ofIndex inCatalog declared
    (ofIndex_of_mem_admittedEntries member))] at found
  have ofIndex := checkEach_eq_ok checked.slots index
    (mem_filter.mpr ⟨declared, isUnique⟩)
  -- The slot is the one that the row as supplied was checked for.
  have asSupplied : newSlot table index pair.1 pair.2 =
      newSlot table index (pair.1.refilled stamps) pair.2 := by
    rw [newSlot, newSlot, unstamped.uniqueSlot tableWellFormed declared
      isUnique pair.1 onWrite, sameKey]
  have isSlot : newSlot table index (pair.1.refilled stamps) pair.2 =
      some (entry, (pair.1.refilled stamps).primaryKeyValues table) := by
    refine newSlot_of_mem_addedEntries tableWellFormed ?_ declared isAdded enforces
    intro old isOld
    exact canonical_of_meets wellFormed (isOld ▸ meets)
  have passed := checkEach_eq_ok ofIndex
    (entry, (pair.1.refilled stamps).primaryKeyValues table)
    (mem_filterMap.mpr ⟨pair, inPairs, asSupplied.trans isSlot⟩)
  exact value_of_checkUnique keeps inCatalog declared member enforces passed found

/-- The rows of a batch that passes its checks share no key. -/
theorem pairwise_apart_of_checked
    (wellFormed : catalog.WellFormed)
    (inCatalog : table ∈ catalog.tables)
    (staysValid : table.StaysValid) (unstamped : table.SlotsUnstamped)
    (fits : ∀ row ∈ rows, row.Fits)
    (checked : Checked table rows existing snapshot) :
    (rows.zip existing).Pairwise (fun pair other =>
      ∀ stamps stamps', table.Stamps stamps → table.Stamps stamps' →
        Apart table (pair.1.refilled stamps) (other.1.refilled stamps')) := by
  have tableWellFormed := wellFormed.tables table inCatalog
  obtain ⟨valid, keys⟩ := checkBulkKeys_spec checked.keys
  have apart : rows.Pairwise (fun row other =>
      ∀ stamps stamps', table.Stamps stamps → table.Stamps stamps' →
        Apart table (row.refilled stamps) (other.refilled stamps')) := by
    have slots : rows.Pairwise (fun row other =>
        ∀ index ∈ table.indexes, index.unique = true →
          ∀ entry entry', uniqueSlot table index row = some entry →
            uniqueSlot table index other = some entry' → entry.key ≠ entry'.key) := by
      refine pairwise_iff_getElem.mpr ?_
      intro first second inFirst inSecond ordered index declared isUnique
      exact pairwise_iff_getElem.mp (checkBatchSlots_spec (checked.batch index declared
        isUnique)).2 first second inFirst inSecond ordered
    refine (keys.and slots).imp_of_mem ?_
    intro row other inRows inRows' both stamps stamps' onWrite onWrite'
    let first : CatalogRow catalog := ⟨table, row.refilled stamps, inCatalog,
        staysValid _ _ onWrite.fills (valid row inRows).1,
        (fits row inRows).refilled _⟩
    let second : CatalogRow catalog := ⟨table, other.refilled stamps', inCatalog,
        staysValid _ _ onWrite'.fills (valid other inRows').1,
        (fits other inRows').refilled _⟩
    have sameTable : first.table = second.table := rfl
    have differs : first.key ≠ second.key := by
      rw [CatalogRow.key, CatalogRow.key, Row.primaryKeyValues_refilled tableWellFormed
        onWrite.fills, Row.primaryKeyValues_refilled tableWellFormed onWrite'.fills]
      exact both.1
    refine apart_of_slots wellFormed sameTable differs ?_
    intro index declared isUnique entry entry' isSlot isSlot'
    rw [unstamped.uniqueSlot tableWellFormed declared isUnique row onWrite] at isSlot
    rw [unstamped.uniqueSlot tableWellFormed declared isUnique other onWrite']
      at isSlot'
    exact both.2 index declared isUnique entry entry' isSlot isSlot'
  have isRows : (rows.zip existing).map Prod.fst = rows :=
    map_fst_zip (Nat.le_of_eq (readRows_spec checked.read).1.symm)
  rw [← isRows, pairwise_map] at apart
  exact apart

theorem view_rowChanges_key
    {new other : CatalogRow catalog}
    (differs : other.key ≠ new.key)
    (previous : Option Row) (state : RecordState) :
    catalog.view (state.changed (rowChanges new.table new.row
        previous)).transaction.get other.key =
      catalog.view state.transaction.get other.key := by
  have untouched : lastWrite other.key
      (rowChanges new.table new.row previous) = none := by
    refine lastWrite_of_absent (fun change member sameKey => ?_)
    rcases mem_append.mp member with inIndexes | isRow
    · obtain ⟨index, _, inChanges⟩ := mem_flatMap.mp inIndexes
      have ofIndex := ofIndex_of_mem_indexChanges inChanges
      rw [sameKey] at ofIndex
      exact not_ofIndex_rowKey _ _ _ ofIndex
    · rw [mem_singleton.mp isRow] at sameKey
      exact differs sameKey.symm
  rw [view_changed (fun _ member =>
    owns_of_mem_rowChanges new.inCatalog member), untouched]
  rfl

theorem stored_rowChanges
    (wellFormed : catalog.WellFormed)
    (new : CatalogRow catalog) (previous : Option Row) (state : RecordState) :
    (catalog.layout wellFormed).Stored (catalog.view (state.changed
        (rowChanges new.table new.row previous)).transaction.get) new := by
  have owned : ∀ change ∈ rowChanges new.table new.row previous,
      catalog.Owns change.1 :=
    fun _ member => owns_of_mem_rowChanges new.inCatalog member
  have isLast := lastWrite_rowKey new.table new.row previous
  have leads := view_changed owned state new.key
  exact leads.trans (congrArg (Option.getD · _) isLast)

/-- Writing a row of a batch leaves the others to be written. -/
theorem placed_changed
    {state : RecordState} {pair other : Row × Option Row}
    (placed : Placed wellFormed (catalog.view state.transaction.get) table pair)
    (otherPlaced : Placed wellFormed (catalog.view state.transaction.get) table other)
    (apart : Apart table pair.1 other.1) :
    Placed wellFormed (catalog.view (state.changed
        (rowChanges table pair.1 pair.2)).transaction.get) table other := by
  obtain ⟨row, previous⟩ := pair
  obtain ⟨otherRow, otherPrevious⟩ := other
  obtain ⟨new, rfl, rfl, meets, free⟩ := placed
  obtain ⟨later, sameTable, rfl, otherMeets, otherFree⟩ := otherPlaced
  have newStored := stored_rowChanges wellFormed new previous state
  have differs : later.key ≠ new.key := by
    intro sameKey
    refine apart.1 ?_
    have laterKey : later.key =
        rowKey new.table (later.row.primaryKeyValues new.table) := by
      rw [CatalogRow.key, sameTable]
    exact sameKey.symm.trans laterKey
  refine ⟨later, sameTable, rfl, ?_, ?_⟩
  · cases otherPrevious with
    | none => exact (view_rowChanges_key differs previous state).trans otherMeets
    | some old =>
        obtain ⟨record, stored, isKey, same⟩ := otherMeets
        refine ⟨record, ?_, isKey, same⟩
        have elsewhere : record.key ≠ new.key := by
          rw [isKey]
          exact differs
        exact (view_rowChanges_key elsewhere previous state).trans stored
  · intro record key value value' stored indexed' indexed
    by_cases isNew : record.key = new.key
    · -- The row that has just been written shares no key with the later one.
      exfalso
      have isIndexed : new.Indexed key value' :=
        (catalog.layout wellFormed).determined record new key value' isNew
          (stored.body_eq newStored isNew) indexed'
      obtain ⟨_, index, declared, entry, member, entry', member', rfl, _,
        sameKey, _⟩ := CatalogRow.entries_of_key wellFormed isIndexed indexed
      exact apart.2 index declared entry member entry' member' sameKey.symm
    · have before : (catalog.layout wellFormed).Stored
          (catalog.view state.transaction.get) record :=
        (view_rowChanges_key isNew previous state).symm.trans stored
      exact otherFree record key value value' before indexed' indexed

/-- Writing the rows of a batch one by one keeps them all. -/
theorem keeps_forEach_writeRowWith
    {pairs : List (Row × Option Row)} (keeps : Catalog.Keeps wellFormed state)
    (placed : ∀ pair ∈ pairs, ∀ stamps, table.Stamps stamps →
      Placed wellFormed (catalog.view state.transaction.get) table
        (pair.1.refilled stamps, pair.2))
    (apart : pairs.Pairwise (fun pair other =>
      ∀ stamps stamps', table.Stamps stamps → table.Stamps stamps' →
        Apart table (pair.1.refilled stamps) (other.1.refilled stamps')))
    (written : (forEach (fun pair : Row × Option Row =>
      records.writeRowWith table pair.1 pair.2 false) pairs).run state =
      (.ok (), after)) :
    Catalog.Keeps wellFormed after := by
  induction pairs generalizing state with
  | nil =>
      cases written
      exact keeps
  | cons pair rest ih =>
      obtain ⟨_, between, first, written⟩ := run_bind_eq_ok.mp written
      obtain ⟨fromFirst, apartRest⟩ := pairwise_cons.mp apart
      have onWrite := records.stamps_stampsOf table pair.2 state.readings
      have isBetween : between.transaction =
          (state.changed (rowChanges table (pair.1.refilled
            (records.stampsOf table pair.2 state.readings))
            pair.2)).transaction := by
        rw [run_writeRowWith_unverified, stamped_eq_refilled] at first
        rw [← changed_ticked table state]
        exact (congrArg (fun ran => ran.2.transaction) first).symm
      have placedFirst := placed pair (mem_cons_self ..) _ onWrite
      refine ih ?_ ?_ apartRest written
      · obtain ⟨new, rfl, isRow, meets, free⟩ := placedFirst
        refine keeps_of_transaction ?_ isBetween
        dsimp only at isRow
        rw [← isRow]
        exact keeps_rowChanges keeps meets free
      · intro other inRest stamps onWrite'
        have placedOther := placed other (mem_cons_of_mem _ inRest) stamps onWrite'
        have moved := placed_changed placedFirst placedOther
          (fromFirst other inRest _ _ onWrite onWrite')
        rw [isBetween]
        exact moved

theorem keeps_writeMany
    (inCatalog : table ∈ catalog.tables)
    (staysValid : table.StaysValid) (unstamped : table.SlotsUnstamped)
    (fits : ∀ row ∈ rows, row.Fits)
    {mode : BulkMode} (keeps : Catalog.Keeps wellFormed state)
    (written : (records.writeMany context table rows mode).run state =
      (.ok (), after)) :
    Catalog.Keeps wellFormed after := by
  rw [writeMany] at written
  split at written
  · cases written
    exact keeps
  · obtain ⟨existing, passed, written⟩ := run_reading_bind_eq_ok.mp written
    have checked := checked_of_checkMany passed
    exact keeps_forEach_writeRowWith keeps (placed_of_checked inCatalog
      staysValid unstamped keeps fits checked) (pairwise_apart_of_checked
      wellFormed inCatalog staysValid unstamped fits checked) written

end

/-! ## Deletions -/

/-- A row that is stored, in its own words or in equal ones. -/
def StoredAs (wellFormed : catalog.WellFormed)
    (store : Bytes → Option Bytes) (table : TableDef) (row : Row) : Prop :=
  ∃ record : CatalogRow catalog, (catalog.layout wellFormed).Stored store record ∧
      record.table = table ∧ row.Same record.row

theorem homeOf_eq_key
    {record : CatalogRow catalog} {pair : TableDef × Row}
    (isTable : record.table = pair.1)
    (same : pair.2.Same record.row) :
    homeOf pair = record.key := by
  rw [homeOf, CatalogRow.key, isTable]
  exact same.rowKey pair.1

variable {state : RecordState} {table : TableDef} {other : TableDef × Row}
  {row : Row} {records : RecordTransaction} {doomed : List (TableDef × Row)}
  {context : SecurityContext}

theorem storedAs_eraseChanges
    (inCatalog : table ∈ catalog.tables)
    (differs : homeOf (table, row) ≠ homeOf other)
    (storedAs : StoredAs wellFormed (catalog.view state.transaction.get)
      other.1 other.2) :
    StoredAs wellFormed (catalog.view (state.changed
        (eraseChanges table row)).transaction.get) other.1 other.2 := by
  obtain ⟨record, stored, isTable, same⟩ := storedAs
  refine ⟨record, ?_, isTable, same⟩
  have untouched : lastWrite record.key (eraseChanges table row) = none := by
    refine lastWrite_of_absent (fun change member sameKey => ?_)
    rcases mem_append.mp member with inIndexes | isRow
    · obtain ⟨index, _, inEntries⟩ := mem_flatMap.mp inIndexes
      obtain ⟨entry, isEntry, rfl⟩ := mem_map.mp inEntries
      have ofIndex := ofIndex_of_mem_admittedEntries isEntry
      rw [show entry.key = record.key from sameKey] at ofIndex
      exact not_ofIndex_rowKey _ _ _ ofIndex
    · rw [mem_singleton.mp isRow] at sameKey
      rw [homeOf_eq_key isTable same] at differs
      exact differs sameKey
  have owned : ∀ change ∈ eraseChanges table row, catalog.Owns change.1 :=
    fun _ member => owns_of_mem_eraseChanges inCatalog member
  have leads := view_changed owned state record.key
  rw [untouched] at leads
  exact leads.trans stored

theorem storedAs_rowChanges
    {new : CatalogRow catalog} (previous : Option Row)
    (differs : new.key ≠ homeOf other)
    (storedAs : StoredAs wellFormed (catalog.view state.transaction.get)
      other.1 other.2) :
    StoredAs wellFormed (catalog.view (state.changed
        (rowChanges new.table new.row previous)).transaction.get)
      other.1 other.2 := by
  obtain ⟨record, stored, isTable, same⟩ := storedAs
  have elsewhere : record.key ≠ new.key := by
    rw [← homeOf_eq_key isTable same]
    exact differs.symm
  exact ⟨record, (view_rowChanges_key elsewhere previous state).trans stored,
    isTable, same⟩

/-- No unique slot that a row newly takes is held by another row. -/
def SlotsFree (table : TableDef) (row : Row) (previous : Option Row)
    (snapshot : Snapshot) : Prop :=
  ∀ index ∈ table.indexes, ∀ entry ∈ addedEntries table row previous index,
    entry.enforcesUniqueness = true →
      ∀ value, snapshot.get entry.key = some value → value = entry.value

/-- The row that is left when a row is retired. -/
def retiredRow (records : RecordTransaction) (table : TableDef)
    (column : Ordinal) (row : Row) (readings : Nat) : Row :=
  records.stamped table ⟨row.values.set column (.i64 (records.clock readings))⟩
    (some row) (readings + 1)

/-- Every row of a deletion that is retired finds its unique slots free. -/
def RemovalsFree (records : RecordTransaction) :
    List (TableDef × Row) → RecordState → Prop
  | [], _ => True
  | (table, row) :: rest, state =>
      (∀ column, table.softDelete = some column → SlotsFree table
          (records.retiredRow table column row state.readings) (some row)
          state.transaction) ∧
        records.RemovalsFree rest (records.removal state table row).2

theorem removalsFree_of_erases
    (erases : ∀ pair ∈ doomed, pair.1.softDelete = none)
    (state : RecordState) :
    records.RemovalsFree doomed state := by
  induction doomed generalizing state with
  | nil => trivial
  | cons pair rest ih =>
      refine ⟨?_, ih (fun other member => erases other (mem_cons_of_mem _ member)) _⟩
      intro column retires
      have erased : pair.1.softDelete = none := erases pair (mem_cons_self ..)
      rw [erased] at retires
      cases retires

/-- Removing a row that is stored, once its slots are free, keeps the others. -/
theorem keeps_removal
    (staysValid : table.StaysValid) (keeps : Catalog.Keeps wellFormed state)
    (storedAs : StoredAs wellFormed (catalog.view state.transaction.get) table row)
    (free : ∀ column, table.softDelete = some column →
      SlotsFree table (records.retiredRow table column row state.readings)
        (some row) state.transaction) :
    Catalog.Keeps wellFormed (records.removal state table row).2 ∧
      ∀ other : TableDef × Row, homeOf (table, row) ≠ homeOf other →
        StoredAs wellFormed (catalog.view state.transaction.get) other.1 other.2 →
        StoredAs wellFormed (catalog.view
          (records.removal state table row).2.transaction.get) other.1
          other.2 := by
  obtain ⟨record, isStored, rfl, same⟩ := storedAs
  have inCatalog := record.inCatalog
  have tableWellFormed := wellFormed.tables record.table inCatalog
  rw [removal]
  cases retires : record.table.softDelete with
  | none =>
      refine ⟨consistent_erased keeps isStored same (view_changed (fun change member =>
          owns_of_mem_eraseChanges inCatalog member) state), ?_⟩
      intro other differs otherStored
      exact storedAs_eraseChanges inCatalog differs otherStored
  | some column =>
      have retiredFills := TableDef.fills_retiredStamp retires
        (records.clock state.readings)
      have stampsFill := (records.stamps_stampsOf record.table (some row)
        (state.readings + 1)).fills
      let written := record.row.refilled
        (TableDef.retiredStamp column (records.clock state.readings))
      let new : CatalogRow catalog :=
        ⟨record.table, written.refilled (records.stampsOf record.table
          (some row) (state.readings + 1)), inCatalog,
          staysValid _ _ stampsFill (staysValid _ _ retiredFills record.valid),
          (record.fits.refilled _).refilled _⟩
      have isKey : record.key = new.key := by
        rw [CatalogRow.key, CatalogRow.key,
          Row.primaryKeyValues_refilled tableWellFormed stampsFill,
          Row.primaryKeyValues_refilled tableWellFormed retiredFills]
      have sameNew : (records.retiredRow record.table column row
            state.readings).Same new.row := by
        rw [retiredRow, stamped_eq_refilled, retired_eq_refilled]
        exact (same.refilled _).refilled _
      have sameChanges := rowChanges_of_same sameNew record.table (some row)
      have meets : new.Meets wellFormed (catalog.view state.transaction.get)
          (some row) :=
        ⟨record, isStored, isKey, same⟩
      have slots : new.Free wellFormed (catalog.view state.transaction.get) := by
        refine free_of_slots keeps meets ?_
        intro index declared entry isAdded enforces value found
        have ofIndex := ofIndex_of_mem_admittedEntries (mem_filter.mp isAdded).1
        rw [Catalog.view_of_owns (Catalog.owns_of_ofIndex inCatalog declared
          ofIndex)] at found
        refine free column retires index declared entry ?_ enforces value found
        rw [addedEntries, sameNew.admittedEntries]
        exact isAdded
      have leads : ((ticked record.table
          { state with readings := state.readings + 1 }).changed
            (rowChanges record.table (records.retiredRow record.table column
              row state.readings) (some row))).transaction =
          (state.changed (rowChanges new.table new.row (some row))).transaction := by
        rw [changed_ticked, sameChanges]
        rfl
      refine ⟨keeps_of_transaction (keeps_rowChanges keeps meets slots) leads, ?_⟩
      intro other differs otherStored
      have isHome : homeOf (record.table, row) = record.key := homeOf_eq_key rfl same
      have elsewhere : new.key ≠ homeOf other := by
        rw [← isKey, ← isHome]
        exact differs
      have kept := storedAs_rowChanges (some row) elsewhere otherStored
      rw [← leads] at kept
      exact kept

theorem retirable_of_storedAs
    {store : Bytes → Option Bytes}
    (storedAs : StoredAs wellFormed store table row) :
    Retirable table row := by
  obtain ⟨record, _, rfl, same⟩ := storedAs
  refine retirable_of_length (wellFormed.tables _ record.inCatalog) ?_
  rw [← Row.width_of_validate record.valid]
  simpa using congrArg length same

/-- Removing rows that are stored, each once, keeps the others. -/
theorem keeps_removeRows
    (staysValid : ∀ table ∈ catalog.tables, table.StaysValid)
    {state after : RecordState} (keeps : Catalog.Keeps wellFormed state)
    (stored : ∀ pair ∈ doomed,
      StoredAs wellFormed (catalog.view state.transaction.get) pair.1 pair.2)
    (nodup : (doomed.map homeOf).Nodup)
    (free : records.RemovalsFree doomed state)
    (removed : (records.removeRows doomed).run state = (.ok (), after)) :
    Catalog.Keeps wellFormed after := by
  induction doomed generalizing state with
  | nil =>
      cases removed
      exact keeps
  | cons pair rest ih =>
      obtain ⟨table, row⟩ := pair
      obtain ⟨_, between, first, removed⟩ := run_bind_eq_ok.mp removed
      obtain ⟨isNew, nodupRest⟩ := nodup_cons.mp nodup
      obtain ⟨freeFirst, freeRest⟩ := free
      have storedFirst := stored (table, row) (mem_cons_self ..)
      have inCatalog : table ∈ catalog.tables := by
        obtain ⟨record, _, rfl, _⟩ := storedFirst
        exact record.inCatalog
      have isBetween : between = (records.removal state table row).2 := by
        dsimp only at first
        rw [(run_removeRow (retirable_of_storedAs storedFirst) records
          state).1] at first
        exact (congrArg Prod.snd first).symm
      subst isBetween
      obtain ⟨kept, others⟩ := keeps_removal (staysValid table inCatalog)
        keeps storedFirst freeFirst
      refine ih kept ?_ nodupRest freeRest removed
      intro other inRest
      refine others other ?_ (stored other (mem_cons_of_mem _ inRest))
      intro sameHome
      exact isNew (mem_map.mpr ⟨other, inRest, sameHome.symm⟩)

theorem keeps_deletion
    (isCatalog : records.catalog = catalog)
    (staysValid : ∀ table ∈ catalog.tables, table.StaysValid)
    {existing : Row} {state after : RecordState}
    (keeps : Catalog.Keeps wellFormed state)
    (isStored : StoredAs wellFormed (catalog.view state.transaction.get) table existing)
    (closed : records.deletionClosure context table existing
      state.transaction = .ok doomed)
    (free : records.RemovalsFree doomed state)
    (removed : (records.removeRows doomed).run state = (.ok (), after)) :
    Catalog.Keeps wellFormed after := by
  have stored : ∀ pair ∈ doomed,
      StoredAs wellFormed (catalog.view state.transaction.get) pair.1
        pair.2 := by
    refine deletionClosure_forall ?_ isStored closed
    intro child foreignKey parentKey rows isChild found row member
    rw [isCatalog] at isChild
    obtain ⟨record, isStored, isTable, isRead⟩ :=
      record_of_referencingRows keeps.comprises isChild found row member
    exact ⟨record, isStored, isTable, isRead.same⟩
  exact keeps_removeRows staysValid keeps stored
    (nodup_deletionClosure closed) free removed

theorem storedAs_of_visibleRow
    (inCatalog : table ∈ catalog.tables)
    (keeps : Catalog.Keeps wellFormed state) {action : Action}
    {primaryKey : List Value}
    (visible : records.visibleRow context table action primaryKey
      state.transaction = .ok (some row)) :
    StoredAs wellFormed (catalog.view state.transaction.get) table row := by
  obtain ⟨record, isStored, isTable, _, isRead⟩ := record_of_readRowUnchecked
    keeps.comprises inCatalog (readRowUnchecked_of_visibleRow visible)
  exact ⟨record, isStored, isTable, isRead.same⟩

/-! ## The checks of a single row -/

section

variable
  {records : RecordTransaction}
  {context : SecurityContext}
  {table : TableDef}
  {row : Row}
  {snapshot : Snapshot}

theorem checkInsert_spec
    {passed : Unit}
    (checked : records.checkInsert context table row snapshot = .ok passed) :
    row.validate table = .ok () ∧
      readRowUnchecked snapshot table (row.primaryKeyValues table) = .ok none := by
  replace checked := ok_of_bind checked
  obtain ⟨_, valid, checked⟩ := bind_eq_ok.mp checked
  replace checked := ok_of_bind checked
  replace checked := ok_of_bind checked
  obtain ⟨found, read, checked⟩ := bind_eq_ok.mp checked
  cases found with
  | none => exact ⟨liftSchema_eq_ok.mp valid, read⟩
  | some _ => cases checked

theorem checkUpdate_spec
    {existing : Row}
    (checked : records.checkUpdate context table row snapshot = .ok existing) :
    row.validate table = .ok () ∧
      readRowUnchecked snapshot table (row.primaryKeyValues table) =
        .ok (some existing) := by
  replace checked := ok_of_bind checked
  replace checked := ok_of_bind checked
  obtain ⟨_, valid, checked⟩ := bind_eq_ok.mp checked
  obtain ⟨found, visible, checked⟩ := bind_eq_ok.mp checked
  cases found with
  | none => cases checked
  | some stored =>
      replace checked := ok_of_bind checked
      cases checked
      exact ⟨liftSchema_eq_ok.mp valid, readRowUnchecked_of_visibleRow visible⟩

theorem checkUpsert_spec
    {existing : Option Row}
    (checked : records.checkUpsert context table row snapshot = .ok existing) :
    row.validate table = .ok () ∧
      readRowUnchecked snapshot table (row.primaryKeyValues table) = .ok existing := by
  replace checked := ok_of_bind checked
  replace checked := ok_of_bind checked
  replace checked := ok_of_bind checked
  obtain ⟨_, valid, checked⟩ := bind_eq_ok.mp checked
  replace checked := ok_of_bind checked
  obtain ⟨found, read, checked⟩ := bind_eq_ok.mp checked
  obtain ⟨visible, _, checked⟩ := bind_eq_ok.mp checked
  split at checked
  · cases checked
  · replace checked := ok_of_bind checked
    cases checked
    exact ⟨liftSchema_eq_ok.mp valid, read⟩

theorem validate_of_checkUpdateIfUnchanged
    {expected existing : Row}
    (checked : records.checkUpdateIfUnchanged context table row expected
      snapshot = .ok existing) :
    row.validate table = .ok () := by
  replace checked := ok_of_bind checked
  replace checked := ok_of_bind checked
  obtain ⟨_, valid, _⟩ := bind_eq_ok.mp checked
  exact liftSchema_eq_ok.mp valid

end

end RecordTransaction

end SlateOrm
