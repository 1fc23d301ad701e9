import SlateOrm.IndexConsistency

namespace SlateOrm

open List RecordTransaction Keys Write

/-!
# Bulk writes and writes row by row

A bulk write checks all its rows against the store as it is before the first of
them is written.  Writing the same rows one by one makes each check when its
turn comes.  The rows of a batch that passes have keys and slots of their own,
so what one row's check has read is not changed by the rows before it, except
where a row references a row of its batch.
-/

section

variable [Platform]

namespace RecordTransaction

/-! ## Row by row -/

/-- The operation on a single row that a bulk write makes of many. -/
def writeSingle (records : RecordTransaction) (context : SecurityContext)
    (table : TableDef) : BulkMode → Row → Write Unit
  | .insert => records.insert context table
  | .upsert => records.upsert context table
  | .update => records.update context table

/-- Write rows one by one. -/
def writeRowByRow (records : RecordTransaction) (context : SecurityContext)
    (table : TableDef) (rows : List Row) (mode : BulkMode) : Write Unit :=
  Write.forEach (records.writeSingle context table mode) rows

/-- The state in which a row has been written in the place of another. -/
def written (records : RecordTransaction) (table : TableDef)
    (state : RecordState) (pair : Row × Option Row) : RecordState :=
  (ticked table state).changed (rowChanges table
      (records.stamped table pair.1 pair.2 state.readings) pair.2)

/-- A row comes to reference a parent by a foreign key. -/
structure Refers (foreignKey : ForeignKeyDef) (pair : Row × Option Row)
    (parentKey : List Value) : Prop where
  references : foreignKey.parentKey pair.1 = some parentKey
  isNew : (pair.2.bind foreignKey.parentKey).any (· == parentKey) = false

/--
Each row that comes to reference a row of its batch can read it when its turn
comes.
-/
def BatchParentsRead (records : RecordTransaction)
    (context : SecurityContext) (table : TableDef) (keys : List Bytes) :
    List (Row × Option Row) → RecordState → Prop
  | [], _ => True
  | pair :: rest, state =>
      (∀ foreignKey ∈ table.foreignKeys, foreignKey.parent = table.id →
        ∀ parentKey, Refers foreignKey pair parentKey →
          Keys.rowKey table parentKey ∈ keys →
            ∃ parent, records.reads.get state.transaction context table
              parentKey = .ok (some parent)) ∧
        records.BatchParentsRead context table keys rest
          (records.written table state pair)

/-! ## What a row's turn needs -/

/-- What a bulk write has found of a row that does not depend on the store. -/
structure Acceptable (records : RecordTransaction)
    (context : SecurityContext) (table : TableDef) (mode : BulkMode)
    (pair : Row × Option Row) : Prop where
  valid : pair.1.validate table = .ok ()
  constraints : checkConstraints table pair.1 = .ok ()
  inserts : mode.mayInsert = true →
    records.security.authorize context table .insert = .ok () ∧
      records.checkRow context table .insert pair.1 = .ok ()
  replaces : mode.mayReplace = true →
    records.security.authorize context table .update = .ok () ∧
      records.security.readable context table = none
  onInsert : mode = .insert → pair.2 = none
  onUpdate : mode = .update → pair.2.isSome = true
  replaced : ∀ current, pair.2 = some current →
    records.security.permitsRowWith context table .update current
        (records.retiredRowsReachable context table) = .ok true ∧
      records.checkRow context table .update pair.1 = .ok ()

/-- What the store has to say of a row of a batch before its turn. -/
structure Ready (records : RecordTransaction) (context : SecurityContext)
    (table : TableDef) (keys : List Bytes) (pair : Row × Option Row)
    (snapshot : Snapshot) : Prop where
  read : readRowUnchecked snapshot table (pair.1.primaryKeyValues table) = .ok pair.2
  /-- A parent is a row of the batch, or can be read. -/
  parents : ∀ foreignKey ∈ table.foreignKeys, ∀ parentKey,
    Refers foreignKey pair parentKey →
      ∃ parent, records.parentOf foreignKey = .ok parent ∧
        (Keys.rowKey parent parentKey ∈ keys ∨
          ∃ found, records.reads.get snapshot context parent parentKey =
            .ok (some found))
  slots : ∀ stamps, table.Stamps stamps → ∀ index ∈ table.indexes,
    ∀ entry ∈ addedEntries table (pair.1.refilled stamps) pair.2 index,
      entry.enforcesUniqueness = true →
        checkUnique table index entry (pair.1.primaryKeyValues table) snapshot = .ok ()

/-- Rows of a batch that have keys and unique slots of their own. -/
structure Clear (table : TableDef) (pair other : Row × Option Row) :
    Prop where
  keys : Keys.rowKey table (pair.1.primaryKeyValues table) ≠
    Keys.rowKey table (other.1.primaryKeyValues table)
  slots : ∀ index ∈ table.indexes, index.unique = true →
    ∀ entry entry', uniqueSlot table index pair.1 = some entry →
      uniqueSlot table index other.1 = some entry' → entry.key ≠ entry'.key

/-! ## A row's turn -/

section

variable
  {records : RecordTransaction}
  {context : SecurityContext}
  {table : TableDef}

variable {snapshot : Snapshot} {row : Row} {pair : Row × Option Row}
  {state : RecordState} {keys : List Bytes} {mode : BulkMode}
  {stamps : Ordinal → Option Int64} {entry : Keys.IndexEntry}
  {wanted : List (TableDef × List Value)} {rows : List Row}
  {foreignKey : ForeignKeyDef} {parentKey : List Value} {parent : TableDef}
  {existing : List (Option Row)}

theorem refusedAfter_eq_none
    {previous : Option Row} {indexes : List IndexDef}
    (passes : ∀ index ∈ indexes, ∀ entry ∈ addedEntries table row previous index,
        entry.enforcesUniqueness = true →
          checkUnique table index entry (row.primaryKeyValues table)
            snapshot = .ok ()) :
    refusedAfter table row previous snapshot indexes = none := by
  induction indexes with
  | nil => rfl
  | cons index rest ih =>
      have accepted : slotRefusal table row previous snapshot index = none := by
        refine findSome?_eq_none_iff.mpr (fun entry isAdded => ?_)
        split
        · next enforces => rw [passes index (mem_cons_self ..) entry isAdded enforces]
        · rfl
      rw [refusedAfter, accepted, ih (fun other member =>
        passes other (mem_cons_of_mem _ member))]
      rfl

theorem run_writeRow_of_ready
    (wellFormed : table.WellFormed)
    (ready : records.Ready context table keys pair state.transaction) :
    (records.writeRow table pair.1 pair.2).run state =
      (.ok (), records.written table state pair) := by
  have onWrite := records.stamps_stampsOf table pair.2 state.readings
  have free : refusedAfter table
      (records.stamped table pair.1 pair.2 state.readings) pair.2
      state.transaction table.indexes = none := by
    rw [stamped_eq_refilled]
    refine refusedAfter_eq_none (fun index declared entry isAdded enforces => ?_)
    rw [Row.primaryKeyValues_refilled wellFormed onWrite.fills]
    exact ready.slots _ onWrite index declared entry isAdded enforces
  rw [run_writeRow wellFormed]
  dsimp only
  rw [free]
  rfl

theorem checkForeignKeys_of_read
    (read : ∀ foreignKey ∈ table.foreignKeys, ∀ parentKey,
      Refers foreignKey pair parentKey →
        ∃ parent, records.parentOf foreignKey = .ok parent ∧
          ∃ found, records.reads.get snapshot context parent parentKey =
            .ok (some found)) :
    records.checkForeignKeys context table pair.1 pair.2 [] snapshot = .ok () := by
  refine checkEach_of_forall (fun foreignKey declared => ?_)
  rw [checkForeignKey]
  split
  · rfl
  · next parentKey references =>
      split
      · rfl
      · next isNew =>
          obtain ⟨parent, isParent, found, seen⟩ := read foreignKey declared
            parentKey ⟨references, Bool.not_eq_true _ ▸ isNew⟩
          refine bind_eq_ok.mpr ⟨parent, isParent, ?_⟩
          rw [if_neg (by simp)]
          exact bind_eq_ok.mpr ⟨some found, seen, rfl⟩

/-- A row whose turn has come is written as a bulk write writes it. -/
theorem run_writeSingle
    (wellFormed : table.WellFormed)
    (acceptable : records.Acceptable context table mode pair)
    (ready : records.Ready context table keys pair state.transaction)
    (references : records.checkForeignKeys context table pair.1 pair.2 []
      state.transaction = .ok ()) :
    (records.writeSingle context table mode pair.1).run state =
      (.ok (), records.written table state pair) := by
  obtain ⟨row, previous⟩ := pair
  have valid : liftSchema (row.validate table) = .ok () :=
    liftSchema_eq_ok.mpr acceptable.valid
  have everyColumn (readsAll : records.security.readable context table = none)
      (action : String) :
      records.security.requireEveryColumn context table action = .ok () := by
    rw [SecurityCatalog.requireEveryColumn, readsAll]
  cases mode with
  | insert =>
      obtain ⟨authorized, permitted⟩ := acceptable.inserts rfl
      obtain rfl : previous = none := acceptable.onInsert rfl
      have checked : records.checkInsert context table row
          state.transaction = .ok () := by
        rw [checkInsert, authorized, valid, permitted, acceptable.constraints,
          ready.read]
        exact references
      rw [writeSingle, insert, run_reading_bind_of_ok checked]
      exact run_writeRow_of_ready wellFormed ready
  | update =>
      obtain ⟨authorized, readsAll⟩ := acceptable.replaces rfl
      obtain ⟨current, rfl⟩ := Option.isSome_iff_exists.mp (acceptable.onUpdate rfl)
      obtain ⟨visible, permitted⟩ := acceptable.replaced current rfl
      have seen : records.visibleRowWith context table .update
          (row.primaryKeyValues table)
          (records.retiredRowsReachable context table) state.transaction =
          .ok (some current) := by
        refine bind_eq_ok.mpr ⟨some current, ready.read, ?_⟩
        exact bind_eq_ok.mpr ⟨true, visible, rfl⟩
      have checked : records.checkUpdate context table row
          state.transaction = .ok current := by
        refine bind_eq_ok.mpr ⟨(), authorized, ?_⟩
        refine bind_eq_ok.mpr ⟨(), everyColumn readsAll _, ?_⟩
        refine bind_eq_ok.mpr ⟨(), valid, ?_⟩
        refine bind_eq_ok.mpr ⟨some current, seen, ?_⟩
        refine bind_eq_ok.mpr ⟨(), ?_, rfl⟩
        rw [checkReplacement, permitted, acceptable.constraints]
        exact references
      rw [writeSingle, update, run_reading_bind_of_ok checked]
      exact run_writeRow_of_ready wellFormed ready
  | upsert =>
      obtain ⟨mayInsert, permitted⟩ := acceptable.inserts rfl
      obtain ⟨mayUpdate, readsAll⟩ := acceptable.replaces rfl
      have mayReplace : records.mayReplace context table previous = .ok true := by
        cases previous with
        | none => rfl
        | some current => exact (acceptable.replaced current rfl).1
      have permitted' : records.checkRow context table
          (if previous.isSome then .update else .insert) row = .ok () := by
        cases previous with
        | none => exact permitted
        | some current => exact (acceptable.replaced current rfl).2
      have checked : records.checkUpsert context table row
          state.transaction = .ok previous := by
        refine bind_eq_ok.mpr ⟨(), mayInsert, ?_⟩
        refine bind_eq_ok.mpr ⟨(), mayUpdate, ?_⟩
        refine bind_eq_ok.mpr ⟨(), everyColumn readsAll _, ?_⟩
        refine bind_eq_ok.mpr ⟨(), valid, ?_⟩
        refine bind_eq_ok.mpr ⟨(), permitted, ?_⟩
        refine bind_eq_ok.mpr ⟨previous, ready.read, ?_⟩
        refine bind_eq_ok.mpr ⟨true, mayReplace, ?_⟩
        refine bind_eq_ok.mpr ⟨(), ?_, rfl⟩
        rw [checkReplacement, permitted', acceptable.constraints]
        exact references
      rw [writeSingle, upsert, run_reading_bind_of_ok checked]
      exact run_writeRow_of_ready wellFormed ready

/-! ## What the rows before it leave -/

theorem get_written_rowKey
    (wellFormed : table.WellFormed)
    (records : RecordTransaction) (state : RecordState) {owner : TableDef}
    {primaryKey : List Value}
    (differs : rowKey table (pair.1.primaryKeyValues table) ≠ rowKey owner primaryKey) :
    (records.written table state pair).transaction.get (rowKey owner primaryKey) =
      state.transaction.get (rowKey owner primaryKey) := by
  have onWrite := records.stamps_stampsOf table pair.2 state.readings
  rw [written, get_rowChanges_of_ne, ticked_transaction]
  rw [stamped_eq_refilled, Row.primaryKeyValues_refilled wellFormed onWrite.fills]
  exact differs.symm

/-- A row's turn leaves the slots of the others as they are, or frees them. -/
theorem get_written_slot
    (wellFormed : table.WellFormed)
    (unstamped : table.SlotsUnstamped) (records : RecordTransaction)
    (state : RecordState) {pair other : Row × Option Row}
    (clear : Clear table other pair) (onWrite : table.Stamps stamps)
    {index : IndexDef}
    (declared : index ∈ table.indexes)
    (member : entry ∈ admittedEntries table index (pair.1.refilled stamps))
    (enforces : entry.enforcesUniqueness = true) :
    (records.written table state other).transaction.get entry.key = none ∨
      (records.written table state other).transaction.get entry.key =
        state.transaction.get entry.key := by
  have indexWellFormed := wellFormed.indexes index declared
  have isUnique := enforcesUniqueness_of_mem member enforces
  have ofIndex := ofIndex_of_mem_admittedEntries member
  have onWrite' := records.stamps_stampsOf table other.2 state.readings
  have removes : ∀ change ∈ rowChanges table
      (records.stamped table other.1 other.2 state.readings) other.2,
      change.1 = entry.key → change.2 = none := by
    intro change isChange isKey
    rcases mem_append.mp isChange with inIndexes | isRow
    · obtain ⟨index', declared', inChanges⟩ := mem_flatMap.mp inIndexes
      obtain rfl : index' = index := eq_of_sameKey wellFormed.indexIds declared'
        declared (isKey ▸ ofIndex_of_mem_indexChanges inChanges) ofIndex
      rcases mem_append.mp inChanges with dropped | added
      · obtain ⟨old, _, rfl⟩ := mem_map.mp dropped
        rfl
      · -- An entry that is put here would be the slot of both rows.
        obtain ⟨put, isAdded, rfl⟩ := mem_map.mp added
        have isPut := (mem_filter.mp isAdded).1
        rw [stamped_eq_refilled] at isPut
        have enforces' : put.enforcesUniqueness = true :=
          (enforcesUniqueness_of_sameKey wellFormed declared isPut member
            isKey).trans enforces
        have slot := uniqueSlot_of_mem indexWellFormed member enforces
        have slot' := uniqueSlot_of_mem indexWellFormed isPut enforces'
        rw [unstamped.uniqueSlot wellFormed declared isUnique _ onWrite] at slot
        rw [unstamped.uniqueSlot wellFormed declared isUnique _ onWrite'] at slot'
        exact absurd isKey (clear.slots index' declared isUnique put entry slot' slot)
    · rw [mem_singleton.mp isRow] at isKey
      exact absurd (isKey ▸ ofIndex) (not_ofIndex_rowKey table _ index.id)
  rw [written, RecordState.get_changed, ticked_transaction]
  by_cases isChanged : ∃ change ∈ rowChanges table (records.stamped table other.1
    other.2 state.readings) other.2, change.1 = entry.key
  · obtain ⟨change, isChange, isKey⟩ := isChanged
    left
    rw [← isKey, Overlay.lastWrite_of_mem isChange (fun again isAgain same =>
      (removes again isAgain (same.trans isKey)).trans
        (removes change isChange isKey).symm), removes change isChange isKey]
    rfl
  · right
    rw [Overlay.lastWrite_of_absent (fun change isChange isKey =>
      isChanged ⟨change, isChange, isKey⟩)]
    rfl

/-- A row is as ready after another row's turn as before it. -/
theorem Ready.later
    (wellFormed : table.WellFormed)
    (unstamped : table.SlotsUnstamped) {pair other : Row × Option Row}
    (ready : records.Ready context table keys pair state.transaction)
    (clear : Clear table other pair)
    (inBatch : rowKey table (other.1.primaryKeyValues table) ∈ keys) :
    records.Ready context table keys pair
      (records.written table state other).transaction := by
  refine ⟨?_, ?_, ?_⟩
  · rw [readRowUnchecked_congr (get_written_rowKey wellFormed records state clear.keys)]
    exact ready.read
  · intro foreignKey declared parentKey refers
    obtain ⟨parent, isParent, parentRead⟩ :=
      ready.parents foreignKey declared parentKey refers
    refine ⟨parent, isParent, ?_⟩
    rcases parentRead with inKeys | ⟨found, seen⟩
    · exact .inl inKeys
    · by_cases inKeys : rowKey parent parentKey ∈ keys
      · exact .inl inKeys
      · right
        have differs : rowKey table (other.1.primaryKeyValues table) ≠
            rowKey parent parentKey := by
          intro same
          exact inKeys (same ▸ inBatch)
        refine ⟨found, ?_⟩
        rw [SecuredReads.get, readRowUnchecked_congr
          (get_written_rowKey wellFormed records state differs)]
        exact seen
  · intro stamps onWrite index declared entry isAdded enforces
    have passed := ready.slots stamps onWrite index declared entry isAdded enforces
    rcases get_written_slot wellFormed unstamped records state clear onWrite
      declared (mem_filter.mp isAdded).1 enforces with isFree | same
    · rw [checkUnique, isFree]
    · rw [checkUnique_congr same]
      exact passed

/-! ## All turns -/

/-- Writing rows one by one is writing them as a bulk write does. -/
theorem run_writeRowByRow
    (wellFormed : table.WellFormed)
    (unstamped : table.SlotsUnstamped)
    (isTable : ∀ foreignKey ∈ table.foreignKeys, ∀ parent,
      records.parentOf foreignKey = .ok parent →
        parent.id = foreignKey.parent ∧ (parent.id = table.id → parent = table))
    {pairs : List (Row × Option Row)}
    (acceptable : ∀ pair ∈ pairs, records.Acceptable context table mode pair)
    (ready : ∀ pair ∈ pairs, records.Ready context table keys pair state.transaction)
    (clear : pairs.Pairwise (Clear table))
    (inBatch : ∀ pair ∈ pairs, rowKey table (pair.1.primaryKeyValues table) ∈ keys)
    (onlyRows : ∀ key ∈ keys, ∃ primaryKey, key = rowKey table primaryKey)
    (parentsRead : records.BatchParentsRead context table keys pairs state) :
    (records.writeRowByRow context table (pairs.map Prod.fst) mode).run state =
      (forEach (fun pair : Row × Option Row =>
        records.writeRowWith table pair.1 pair.2 false) pairs).run state := by
  induction pairs generalizing state with
  | nil => rfl
  | cons pair rest ih =>
      obtain ⟨here, later⟩ := parentsRead
      obtain ⟨apart, clearRest⟩ := pairwise_cons.mp clear
      have readyHere := ready pair (mem_cons_self ..)
      have references : records.checkForeignKeys context table pair.1 pair.2
          [] state.transaction = .ok () := by
        refine checkForeignKeys_of_read (fun foreignKey declared parentKey refers => ?_)
        obtain ⟨parent, isParent, parentRead⟩ :=
          readyHere.parents foreignKey declared parentKey refers
        refine ⟨parent, isParent, ?_⟩
        rcases parentRead with inKeys | found
        · obtain ⟨isId, isSelf⟩ := isTable foreignKey declared parent isParent
          obtain ⟨primaryKey, isKey⟩ := onlyRows _ inKeys
          obtain rfl : parent = table := isSelf (header_append_inj isKey).2.1
          exact here foreignKey declared isId.symm parentKey refers inKeys
        · exact found
      have turn := run_writeSingle wellFormed
        (acceptable pair (mem_cons_self ..)) readyHere references
      have bulk : (records.writeRowWith table pair.1 pair.2 false).run state =
          (.ok (), records.written table state pair) :=
        run_writeRowWith_unverified ..
      rw [map_cons, writeRowByRow, forEach, forEach,
        run_bind_of_ok turn, run_bind_of_ok bulk]
      refine ih (fun other member => acceptable other
        (mem_cons_of_mem _ member)) (fun other member => ?_) clearRest
        (fun other member => inBatch other (mem_cons_of_mem _ member)) later
      exact (ready other (mem_cons_of_mem _ member)).later wellFormed
        unstamped (apart other member) (inBatch pair (mem_cons_self ..))

/-! ## What a bulk write has checked -/

omit [Platform] in
/-- The parents that a batch asks for are those its rows reference. -/
theorem mem_wantedParents
    {foreignKeys : List ForeignKeyDef} {asked : List Bytes}
    (collected : records.wantedParents rows foreignKeys asked = .ok wanted) :
    ∀ pair ∈ wanted, ∃ foreignKey ∈ foreignKeys,
      records.parentOf foreignKey = .ok pair.1 ∧
        ∃ row ∈ rows, foreignKey.parentKey row = some pair.2 := by
  induction foreignKeys generalizing asked wanted with
  | nil =>
      cases collected
      exact fun _ member => absurd member not_mem_nil
  | cons foreignKey rest ih =>
      obtain ⟨parent, isParent, collected⟩ := bind_eq_ok.mp collected
      dsimp only at collected
      obtain ⟨others, collectedRest, collected⟩ := bind_eq_ok.mp collected
      cases collected
      have ofKeys : ∀ (keys : List (List Value)) (asked : List Bytes)
          (before : List (TableDef × List Value)),
          ∀ pair ∈ (keys.foldl (fun (seen : List Bytes ×
              List (TableDef × List Value)) key =>
            if seen.1.contains (rowKey parent key) then
              (seen.1, seen.2)
            else
              (rowKey parent key :: seen.1,
                seen.2 ++ [(parent, key)])) (asked, before)).2,
            pair ∈ before ∨ pair.1 = parent ∧ pair.2 ∈ keys := by
        intro keys
        induction keys with
        | nil => exact fun _ _ _ member => .inl member
        | cons key keys ofRest =>
            intro asked before pair member
            rw [foldl_cons] at member
            split at member
            · rcases ofRest _ _ pair member with older | ⟨isParent, inKeys⟩
              · exact .inl older
              · exact .inr ⟨isParent, mem_cons_of_mem _ inKeys⟩
            · rcases ofRest _ _ pair member with older | ⟨isParent, inKeys⟩
              · rcases mem_append.mp older with older | isNew
                · exact .inl older
                · rw [mem_singleton.mp isNew]
                  exact .inr ⟨rfl, mem_cons_self ..⟩
              · exact .inr ⟨isParent, mem_cons_of_mem _ inKeys⟩
      intro pair member
      rcases mem_append.mp member with here | later
      · rcases ofKeys _ _ [] pair here with none_ | ⟨rfl, inKeys⟩
        · cases none_
        · obtain ⟨row, inRows, references⟩ := mem_filterMap.mp inKeys
          exact ⟨foreignKey, mem_cons_self .., isParent, row, inRows, references⟩
      · obtain ⟨other, declared, found⟩ := ih collectedRest pair later
        exact ⟨other, mem_cons_of_mem _ declared, found⟩

theorem mem_foundParents
    {found : List Bytes}
    (read : records.foundParents context snapshot wanted = .ok found) :
    ∀ key ∈ found, ∃ pair ∈ wanted, rowKey pair.1 pair.2 = key ∧
      ∃ row, records.reads.get snapshot context pair.1 pair.2 = .ok (some row) := by
  induction wanted generalizing found with
  | nil =>
      cases read
      exact fun _ member => absurd member not_mem_nil
  | cons pair rest ih =>
      obtain ⟨row, seen, read⟩ := bind_eq_ok.mp read
      obtain ⟨others, readRest, read⟩ := bind_eq_ok.mp read
      cases read
      intro key member
      have ofRest (inOthers : key ∈ others) :
          ∃ other ∈ pair :: rest, rowKey other.1 other.2 = key ∧
            ∃ row, records.reads.get snapshot context other.1 other.2 =
              .ok (some row) := by
        obtain ⟨other, inRest, isRead⟩ := ih readRest key inOthers
        exact ⟨other, mem_cons_of_mem _ inRest, isRead⟩
      split at member
      · next isSome =>
          obtain ⟨parent, rfl⟩ := Option.isSome_iff_exists.mp isSome
          rcases mem_cons.mp member with rfl | inOthers
          · exact ⟨pair, mem_cons_self .., rfl, parent, seen⟩
          · exact ofRest inOthers
      · exact ofRest member

omit [Platform] in
theorem parentKey_eq_map
    (references : foreignKey.parentKey row = some parentKey) :
    parentKey = foreignKey.columns.map row.valueOrNull := by
  rw [ForeignKeyDef.parentKey] at references
  revert references
  induction foreignKey.columns generalizing parentKey with
  | nil =>
      intro references
      cases references
      rfl
  | cons ordinal rest ih =>
      intro references
      rw [mapM_cons] at references
      obtain ⟨value, isValue, references⟩ := Option.bind_eq_some_iff.mp references
      obtain ⟨others, areOthers, references⟩ := Option.bind_eq_some_iff.mp references
      cases references
      rw [map_cons, ih areOthers, Row.valueOrNull]
      split at isValue
      · cases isValue
      · next found =>
          split at isValue
          · cases isValue
          · cases isValue
            rw [found]
            rfl

/-- A valid row references keys of the parent's types. -/
theorem fits_of_parentKey
    {catalog : Catalog}
    (wellFormed : catalog.WellFormed)
    (validated : catalog.validateForeignKeys = .ok ())
    (inCatalog : table ∈ catalog.tables)
    (declared : foreignKey ∈ table.foreignKeys)
    (isParent : catalog.table foreignKey.parent = some parent)
    (valid : row.validate table = .ok ())
    (references : foreignKey.parentKey row = some parentKey) :
    parentKey.length = parent.primaryKey.length ∧
      ∀ value ∈ parentKey, value.fits = true := by
  have checked := checkEach_eq_ok (checkEach_eq_ok validated table inCatalog)
    foreignKey declared
  rw [Catalog.validateForeignKey, isParent] at checked
  dsimp only at checked
  split at checked
  · cases checked
  · next width =>
      rw [not_not] at width
      obtain ⟨_, types, _⟩ := bind_eq_ok.mp checked
      rw [parentKey_eq_map references]
      refine ⟨by rw [length_map, width], ?_⟩
      intro value member
      obtain ⟨ordinal, inColumns, rfl⟩ := mem_map.mp member
      obtain ⟨position, inPosition, rfl⟩ := mem_iff_getElem.mp inColumns
      obtain ⟨child, foundChild, _⟩ := (wellFormed.tables table
        inCatalog).foreignKeys foreignKey declared _ inColumns
      have inParent : position < parent.primaryKey.length := width ▸ inPosition
      obtain ⟨column, found, _, isKeyable, _⟩ := (wellFormed.tables parent
        (mem_of_find?_eq_some isParent)).key _ (getElem_mem inParent)
      have sameType := checkEach_eq_ok types
        (foreignKey.columns[position], parent.primaryKey[position])
        (mem_iff_getElem.mpr ⟨position, by
          rw [length_zip, width, Nat.min_self]; exact inParent,
          getElem_zip⟩)
      have foundChild' : table.column foreignKey.columns[position] = some child :=
        foundChild
      rw [Catalog.checkForeignKeyType, foundChild', found] at sameType
      dsimp only at sameType
      split at sameType
      · cases sameType
      · next isType =>
          rw [not_not] at isType
          have typed := (Row.holds_of_validate (wellFormed.tables table
            inCatalog) valid foundChild').typed
          rcases typed with hasType | isNull
          · have notVector := isKeyable.notVector
            have notArray := isKeyable.notArray
            rw [← isType] at notVector notArray
            cases value : row.valueOrNull foreignKey.columns[position] with
            | vector _ =>
                rw [value] at hasType
                exact absurd (Option.some.inj hasType).symm notVector
            | array _ =>
                rw [value] at hasType
                exact absurd (Option.some.inj hasType).symm notArray
            | _ => rfl
          · rw [isNull]
            rfl

/-- A row is seen under whichever of two equal keys it is asked for. -/
theorem exists_get_of_sameKey
    {primaryKey primaryKey' : List Value}
    (sameKey : primaryKey.map Value.canonical = primaryKey'.map Value.canonical)
    (seen : records.reads.get snapshot context parent primaryKey = .ok (some row)) :
    ∃ row', records.reads.get snapshot context parent primaryKey' =
      .ok (some row') := by
  obtain ⟨_, authorized, seen⟩ := bind_eq_ok.mp seen
  obtain ⟨filter, isFilter, seen⟩ := bind_eq_ok.mp seen
  obtain ⟨found, read, seen⟩ := bind_eq_ok.mp seen
  have sameBytes : rowKey parent primaryKey' = rowKey parent primaryKey := by
    rw [rowKey, rowKey, encode, encode, encodeWith_congr sameKey]
  cases found with
  | none => cases seen
  | some stored =>
      rw [readRowUnchecked] at read
      split at read
      · cases read
      · next body isBody =>
          obtain ⟨_, decodes, isStored⟩ := bind_eq_ok.mp read
          cases isStored
          obtain ⟨values, _, fills⟩ :=
            exists_values_of_decodeRowColumns (liftSchema_eq_ok.mp decodes)
          have isStored := liftSchema_eq_ok.mp decodes
          rw [decodeRow, fills primaryKey] at isStored
          cases isStored
          have read' : readRowUnchecked snapshot parent primaryKey' =
              .ok (some ⟨fillKey parent primaryKey' values⟩) := by
            rw [readRowUnchecked, sameBytes, isBody]
            exact bind_eq_ok.mpr ⟨_, liftSchema_eq_ok.mpr (fills primaryKey'), rfl⟩
          have same := same_fillKey parent sameKey values
          have sameAnswer : filter.admits ⟨fillKey parent primaryKey' values⟩ =
                filter.admits ⟨fillKey parent primaryKey values⟩ := by
            rw [Expr.admits, Expr.admits, Expr.evaluate, Expr.evaluate,
              Expr.evaluateOver_congr same.sameColumns filter]
          have admitted : filter.admits ⟨fillKey parent primaryKey values⟩ = true := by
            cases isAdmitted : filter.admits ⟨fillKey parent primaryKey values⟩ with
            | true => rfl
            | false =>
                simp [Option.filter, isAdmitted] at seen
                cases seen
          refine ⟨conceal ⟨fillKey parent primaryKey' values⟩
            (records.security.concealed context parent), ?_⟩
          refine bind_eq_ok.mpr ⟨(), authorized, ?_⟩
          refine bind_eq_ok.mpr ⟨filter, isFilter, ?_⟩
          refine bind_eq_ok.mpr ⟨_, read', ?_⟩
          rw [Option.filter_some, sameAnswer, admitted]
          rfl

omit [Platform] in
theorem guarded_eq_ok
    {β : Type} {guard : Bool} {checked next : Except KernelError β} {result : β}
    {holds : Prop}
    (leads : checked = .ok result → holds ∧ next = .ok result)
    (passed : (if guard = true then checked else next) = .ok result) :
    (guard = true → holds) ∧ next = .ok result := by
  split at passed
  · obtain ⟨held, follows⟩ := leads passed
    exact ⟨fun _ => held, follows⟩
  · next notMade => exact ⟨fun isMade => absurd isMade notMade, passed⟩

/-- What a batch's rows are checked against, besides the store's keys. -/
structure Examined (records : RecordTransaction) (context : SecurityContext)
    (table : TableDef) (rows : List Row) (mode : BulkMode)
    (existing : List (Option Row)) (snapshot : Snapshot) : Prop where
  inserts : mode.mayInsert = true →
    records.security.authorize context table .insert = .ok ()
  replaces : mode.mayReplace = true →
    records.security.authorize context table .update = .ok () ∧
      records.security.requireEveryColumn context table "a whole-row replace" = .ok ()
  constraints : ∀ row ∈ rows, checkConstraints table row = .ok ()
  permitted : mode.mayInsert = true →
    ∀ row ∈ rows, records.checkRow context table .insert row = .ok ()
  rows : ∃ known existingFilter insertCheck updateCheck,
    records.visibleParents context table rows snapshot = .ok known ∧
      records.security.rowFilterWith context table .update
          (records.retiredRowsReachable context table) =
        .ok existingFilter ∧
      records.security.rowFilterWith context table .update .visible = .ok updateCheck ∧
      ∀ pair ∈ rows.zip existing, records.checkBulkRow context table mode
          (if table.foreignKeys.any (fun key => key.parent == table.id) then
            known ++ (rows.map (fun row => row.primaryKeyValues table)).map
              (Keys.rowKey table)
          else
            known) existingFilter insertCheck updateCheck snapshot pair =
          .ok ()

/-- A batch is examined before it is written. -/
theorem examined_of_checkMany
    (checked : records.checkMany context table rows mode snapshot = .ok existing) :
    records.Examined context table rows mode existing snapshot := by
  rw [checkMany] at checked
  dsimp only at checked
  obtain ⟨inserts, checked⟩ : (mode.mayInsert = true →
      records.security.authorize context table .insert = .ok ()) ∧ _ :=
    guarded_eq_ok (fun passed => by
      obtain ⟨_, authorized, follows⟩ := bind_eq_ok.mp passed
      exact ⟨authorized, follows⟩) checked
  obtain ⟨replaces, checked⟩ : (mode.mayReplace = true →
      records.security.authorize context table .update = .ok () ∧
        records.security.requireEveryColumn context table
          "a whole-row replace" = .ok ()) ∧ _ :=
    guarded_eq_ok (fun passed => by
      obtain ⟨_, authorized, passed⟩ := bind_eq_ok.mp passed
      obtain ⟨_, everyColumn, follows⟩ := bind_eq_ok.mp passed
      exact ⟨⟨authorized, everyColumn⟩, follows⟩) checked
  replace checked := ok_of_bind checked
  replace checked := ok_of_bind checked
  obtain ⟨_, constraints, checked⟩ := bind_eq_ok.mp checked
  obtain ⟨permitted, checked⟩ : (mode.mayInsert = true →
      checkEach (records.checkRow context table .insert) rows = .ok ()) ∧ _ :=
    guarded_eq_ok (fun passed => by
      obtain ⟨_, permitted, follows⟩ := bind_eq_ok.mp passed
      exact ⟨permitted, follows⟩) checked
  obtain ⟨found, _, checked⟩ := bind_eq_ok.mp checked
  replace checked := ok_of_bind checked
  obtain ⟨known, isKnown, checked⟩ := bind_eq_ok.mp checked
  obtain ⟨existingFilter, isExisting, checked⟩ := bind_eq_ok.mp checked
  obtain ⟨insertCheck, _, checked⟩ := bind_eq_ok.mp checked
  obtain ⟨updateCheck, isUpdate, checked⟩ := bind_eq_ok.mp checked
  obtain ⟨_, bulk, checked⟩ := bind_eq_ok.mp checked
  cases checked
  exact ⟨inserts, replaces, checkEach_eq_ok constraints, fun may =>
    checkEach_eq_ok (permitted may), known, existingFilter, insertCheck,
    updateCheck, isKnown, isExisting, isUpdate, checkEach_eq_ok bulk⟩

/-- What a row of a batch was found to be. -/
theorem checkBulkRow_spec
    {parents : List Bytes} {existingFilter insertCheck updateCheck : Expr}
    (checked : records.checkBulkRow context table mode parents existingFilter
      insertCheck updateCheck snapshot pair = .ok ()) :
    (mode = .insert → pair.2 = none) ∧ (mode = .update → pair.2.isSome = true) ∧
      (∀ current, pair.2 = some current → existingFilter.admits current = true ∧
          checkRowAgainst table pair.1 updateCheck = .ok ()) ∧
      records.checkForeignKeys context table pair.1 pair.2 parents snapshot =
        .ok () := by
  obtain ⟨row, previous⟩ := pair
  rw [checkBulkRow.eq_def] at checked
  dsimp only at checked ⊢
  split at checked
  · cases checked
  · cases checked
  · next notInsert =>
      split at checked
      · next admits =>
          replace checked := ok_of_bind checked
          obtain ⟨_, against, references⟩ := bind_eq_ok.mp checked
          refine ⟨fun isInsert => absurd isInsert notInsert, fun _ => rfl, ?_,
            references⟩
          rintro _ ⟨⟩
          exact ⟨admits, against⟩
      · cases checked
  · next notUpdate =>
      replace checked := ok_of_bind checked
      obtain ⟨_, _, references⟩ := bind_eq_ok.mp checked
      refine ⟨fun _ => rfl, fun isUpdate => absurd isUpdate notUpdate, ?_, references⟩
      rintro current ⟨⟩

theorem acceptable_of_examined
    (checked : Checked table rows existing snapshot)
    (examined : records.Examined context table rows mode existing snapshot) :
    ∀ pair ∈ rows.zip existing, records.Acceptable context table mode pair := by
  intro pair inPairs
  have inRows : pair.1 ∈ rows := (of_mem_zip inPairs).1
  obtain ⟨known, existingFilter, insertCheck, updateCheck, _, isExisting,
    isUpdate, bulk⟩ := examined.rows
  obtain ⟨onInsert, onUpdate, replaced, _⟩ := checkBulkRow_spec (bulk pair inPairs)
  refine ⟨((checkBulkKeys_spec checked.keys).1 pair.1 inRows).1,
    examined.constraints pair.1 inRows, ?_, ?_, onInsert, onUpdate, ?_⟩
  · intro mayInsert
    exact ⟨examined.inserts mayInsert, examined.permitted mayInsert pair.1 inRows⟩
  · intro mayReplace
    obtain ⟨authorized, everyColumn⟩ := examined.replaces mayReplace
    refine ⟨authorized, ?_⟩
    rw [SecurityCatalog.requireEveryColumn] at everyColumn
    split at everyColumn
    · next readsAll => exact readsAll
    · cases everyColumn
  · intro current isCurrent
    obtain ⟨admits, against⟩ := replaced current isCurrent
    refine ⟨bind_eq_ok.mpr ⟨existingFilter, isExisting, ?_⟩,
      bind_eq_ok.mpr ⟨updateCheck, isUpdate, against⟩⟩
    rw [admits]
    rfl

/-- A slot that a row takes newly has been checked for the row as supplied. -/
theorem checkUnique_of_checked
    (wellFormed : table.WellFormed)
    (unstamped : table.SlotsUnstamped)
    (checked : Checked table rows existing snapshot)
    (inPairs : pair ∈ rows.zip existing)
    (onWrite : table.Stamps stamps) {index : IndexDef}
    (declared : index ∈ table.indexes)
    (isAdded : entry ∈ addedEntries table (pair.1.refilled stamps) pair.2 index)
    (enforces : entry.enforcesUniqueness = true) :
    checkUnique table index entry (pair.1.primaryKeyValues table) snapshot =
      .ok () := by
  have member := (mem_filter.mp isAdded).1
  have isUnique := enforcesUniqueness_of_mem member enforces
  have sameKey := Row.primaryKeyValues_refilled wellFormed onWrite.fills pair.1
  have asSupplied : newSlot table index pair.1 pair.2 =
      newSlot table index (pair.1.refilled stamps) pair.2 := by
    rw [newSlot, newSlot, unstamped.uniqueSlot wellFormed declared isUnique
      pair.1 onWrite, sameKey]
  have isSlot : newSlot table index (pair.1.refilled stamps) pair.2 =
      some (entry, pair.1.primaryKeyValues table) := by
    rw [← sameKey]
    refine newSlot_of_mem_addedEntries wellFormed ?_ declared isAdded enforces
    intro old isOld
    rw [sameKey]
    have read := (readRows_spec checked.read).2 pair inPairs
    rw [isOld, readRowUnchecked] at read
    split at read
    · cases read
    · obtain ⟨_, decodes, isRow⟩ := bind_eq_ok.mp read
      cases isRow
      rw [primaryKeyValues_of_decodeRowColumns wellFormed
        (by rw [Row.primaryKeyValues, Row.project, length_map])
        (liftSchema_eq_ok.mp decodes)]
  have ofIndex := checkEach_eq_ok checked.slots index
    (mem_filter.mpr ⟨declared, isUnique⟩)
  exact checkEach_eq_ok ofIndex (entry, pair.1.primaryKeyValues table)
    (mem_filterMap.mpr ⟨pair, inPairs, asSupplied.trans isSlot⟩)

omit [Platform] in
theorem parentOf_spec
    (isParent : records.parentOf foreignKey = .ok parent) :
    records.catalog.table foreignKey.parent = some parent ∧
      parent ∈ records.catalog.tables ∧ parent.id = foreignKey.parent := by
  rw [parentOf] at isParent
  split at isParent
  · next found =>
      cases isParent
      have isFound := find?_some found
      exact ⟨found, mem_of_find?_eq_some found, eq_of_beq isFound⟩
  · cases isParent

/-- Each parent that a batch's rows come to reference is of the batch, or read. -/
theorem parents_of_examined
    (wellFormed : records.catalog.WellFormed)
    (validated : records.catalog.validateForeignKeys = .ok ())
    (inCatalog : table ∈ records.catalog.tables)
    (valid : ∀ row ∈ rows, row.validate table = .ok ())
    (examined : records.Examined context table rows mode existing snapshot)
    (inPairs : pair ∈ rows.zip existing)
    (declared : foreignKey ∈ table.foreignKeys)
    (refers : Refers foreignKey pair parentKey) :
    ∃ parent, records.parentOf foreignKey = .ok parent ∧ (rowKey parent parentKey ∈
          rows.map (fun row => rowKey table (row.primaryKeyValues table)) ∨
        ∃ found, records.reads.get snapshot context parent parentKey =
          .ok (some found)) := by
  obtain ⟨known, _, _, _, isKnown, _, _, bulk⟩ := examined.rows
  obtain ⟨_, _, _, references⟩ := checkBulkRow_spec (bulk pair inPairs)
  generalize areParents : (if table.foreignKeys.any
    (fun key => key.parent == table.id) then _ else known) = parents
    at references
  have reference := checkEach_eq_ok references foreignKey declared
  rw [checkForeignKey, refers.references] at reference
  dsimp only at reference
  rw [refers.isNew, if_neg Bool.false_ne_true] at reference
  obtain ⟨parent, isParent, reference⟩ := bind_eq_ok.mp reference
  obtain ⟨isTable, inTables, isId⟩ := parentOf_spec isParent
  refine ⟨parent, isParent, ?_⟩
  split at reference
  · next contained =>
      have ofKnown (isOne : rowKey parent parentKey ∈ known) :
          ∃ found, records.reads.get snapshot context parent parentKey =
            .ok (some found) := by
        obtain ⟨wanted, areWanted, found⟩ := bind_eq_ok.mp isKnown
        obtain ⟨asked, isAsked, sameBytes, row, seen⟩ := mem_foundParents found _ isOne
        obtain ⟨foreignKey', declared', isParent', row', inRows',
          references'⟩ := mem_wantedParents areWanted asked isAsked
        obtain ⟨isTable', inTables', isId'⟩ := parentOf_spec isParent'
        obtain ⟨_, sameId, sameCode⟩ := header_append_inj sameBytes
        have sameParent : asked.1 = parent :=
          wellFormed.tableIds _ inTables' _ inTables sameId
        rw [sameParent] at isTable' seen
        obtain ⟨width, fits⟩ := fits_of_parentKey wellFormed validated inCatalog
          declared isTable (valid pair.1 (of_mem_zip inPairs).1) refers.references
        obtain ⟨width', fits'⟩ := fits_of_parentKey wellFormed validated
          inCatalog declared' isTable' (valid row' inRows') references'
        have coded := (encodeWith_eq_iff (width'.trans width.symm)).mp sameCode
        have sameKey : asked.2.map Value.canonical = parentKey.map Value.canonical := by
          rw [← map_congr_left (fun value member => Value.coded_of_fits
            (fits value member)), ← map_congr_left
            (fun value member => Value.coded_of_fits (fits' value member))]
          exact coded
        exact exists_get_of_sameKey sameKey seen
      rw [contains_iff_mem, ← areParents] at contained
      split at contained
      · rcases mem_append.mp contained with isOne | inBatch
        · exact .inr (ofKnown isOne)
        · rw [map_map] at inBatch
          exact .inl inBatch
      · exact .inr (ofKnown contained)
  · obtain ⟨found, seen, reference⟩ := bind_eq_ok.mp reference
    cases found with
    | none => cases reference
    | some parentRow => exact .inr ⟨parentRow, seen⟩

end

end RecordTransaction

/--
Whatever rows a bulk write takes, where no unique slot depends on the columns
that the store supplies and each row that comes to reference a row of its batch
can read it at its turn, writing the rows one by one succeeds as well and leaves
the same state.
-/
theorem rowByRow_of_writeMany
    {tables : List TableDef}
    (built : ∀ table ∈ tables, ∃ builder : TableBuilder, builder.build = .ok table)
    {records : RecordTransaction}
    (made : Catalog.fromTables tables = .ok records.catalog)
    {table : TableDef}
    (inCatalog : table ∈ records.catalog.tables)
    (unstamped : table.SlotsUnstamped) {context : SecurityContext}
    {mode : BulkMode} {rows : List Row} {state after : RecordState}
    (parentsRead : ∀ existing, readRows state.transaction table
        (rows.map (fun row => row.primaryKeyValues table)) = .ok existing →
      records.BatchParentsRead context table
        (rows.map (fun row => rowKey table (row.primaryKeyValues table)))
        (rows.zip existing) state)
    (ran : (records.writeMany context table rows mode).run state = (.ok (), after)) :
    (records.writeRowByRow context table rows mode).run state = (.ok (), after) := by
  have catalogWellFormed := Catalog.wellFormed_of_fromTables built made
  have wellFormed := catalogWellFormed.tables table inCatalog
  obtain ⟨_, _, validates⟩ := bind_eq_ok.mp made
  obtain ⟨_, validated, isCatalog⟩ := bind_eq_ok.mp validates
  cases isCatalog
  rw [writeMany] at ran
  split at ran
  · next isEmpty =>
      rw [isEmpty_iff.mp isEmpty]
      exact ran
  · obtain ⟨existing, passed, wrote⟩ := run_reading_bind_eq_ok.mp ran
    have checked := checked_of_checkMany passed
    have examined := examined_of_checkMany passed
    obtain ⟨valid, keys⟩ := checkBulkKeys_spec checked.keys
    obtain ⟨width, read⟩ := readRows_spec checked.read
    have isRows : (rows.zip existing).map Prod.fst = rows :=
      map_fst_zip (Nat.le_of_eq width.symm)
    have clear : (rows.zip existing).Pairwise (RecordTransaction.Clear table) := by
      have slots : rows.Pairwise (fun row other =>
          ∀ index ∈ table.indexes, index.unique = true → ∀ entry entry',
              uniqueSlot table index row = some entry →
              uniqueSlot table index other = some entry' →
                entry.key ≠ entry'.key) := by
        refine pairwise_iff_getElem.mpr ?_
        intro first second inFirst inSecond ordered index declared isUnique
        exact pairwise_iff_getElem.mp
          (checkBatchSlots_spec (checked.batch index declared
          isUnique)).2 first second inFirst inSecond ordered
      have both := keys.and slots
      rw [← isRows, pairwise_map] at both
      exact both.imp (fun apart => ⟨apart.1, apart.2⟩)
    have oneByOne := run_writeRowByRow wellFormed unstamped
      (fun foreignKey _ parent isParent => by
        obtain ⟨_, inTables, isId⟩ := parentOf_spec isParent
        exact ⟨isId, catalogWellFormed.tableIds _ inTables _ inCatalog⟩)
      (acceptable_of_examined checked examined)
      (fun pair inPairs => ⟨read pair inPairs,
        fun foreignKey declared parentKey refers =>
          parents_of_examined catalogWellFormed validated
            inCatalog (fun row inRows => (valid row inRows).1) examined
            inPairs declared refers,
        fun stamps onWrite index declared entry isAdded enforces =>
          checkUnique_of_checked wellFormed unstamped
            checked inPairs onWrite declared isAdded enforces⟩)
      clear
      (fun pair inPairs => mem_map_of_mem (of_mem_zip inPairs).1)
      (fun key member => by
        obtain ⟨row, _, rfl⟩ := mem_map.mp member
        exact ⟨_, rfl⟩)
      (parentsRead existing checked.read)
    rw [isRows] at oneByOne
    exact oneByOne.trans wrote

end

/-! ## A thread that is loaded in one go -/

section

local instance commentsPlatform : Platform := asciiPlatform

/-- A table of comments, each of which may answer another. -/
def commentsBuilder : TableBuilder where
  id := 1
  name := "comments"
  columns := [
    { name := "id", type := .i64 },
    { name := "answers", type := .i64, nullable := true }]
  primaryKey := ["id"]
  foreignKeys := [
    { name := "comments_answers"
      columns := ["answers"]
      parent := 1
      onDelete := .restrict }]

/-- The table that the builder makes. -/
def comments : TableDef where
  id := 1
  name := "comments"
  columns := commentsBuilder.columns.map ColumnSpec.toColumn
  primaryKey := [0]
  bodyColumns := [1]
  storedColumns := [1]
  indexes := []
  checks := []
  foreignKeys := [⟨"comments_answers", [1], 1, .restrict⟩]
  tenantColumn := none
  softDelete := none
  schemaVersion := 0

theorem built_comments :
    ∀ table ∈ [comments], ∃ builder : TableBuilder, builder.build = .ok table := by
  intro table member
  rw [mem_singleton.mp member]
  exact ⟨commentsBuilder, rfl⟩

/-- A comment, and the one that answers it. -/
def thread : List Row := [⟨[.i64 1, .null]⟩, ⟨[.i64 2, .i64 1]⟩]

/-- Loading a thread from its start, at once or comment by comment. -/
def loadThread (load : RecordTransaction → SecurityContext → TableDef →
    List Row → BulkMode → Write Unit) :
    Except KernelError Unit × RecordState :=
  (load (.plain ⟨[comments]⟩) .superuser comments thread .insert).run (.begin ∅)

theorem batchParentsRead_thread :
    BatchParentsRead (.plain ⟨[comments]⟩) .superuser
      comments (thread.map (fun row => rowKey comments (row.primaryKeyValues comments)))
      (thread.zip [none, none]) (.begin ∅) := by
  refine ⟨?_, ?_, trivial⟩
  · intro foreignKey declared _ parentKey refers
    rw [mem_singleton.mp declared] at refers
    cases refers.references
  · intro foreignKey declared _ parentKey refers _
    rw [mem_singleton.mp declared] at refers
    cases refers.references
    have seen : (plain ⟨[comments]⟩).reads.get
        ((plain ⟨[comments]⟩).written comments (.begin ∅)
          (⟨[.i64 1, .null]⟩, none)).transaction .superuser comments
        [.i64 1] = .ok (some ⟨[.i64 1, .null]⟩) :=
      rfl
    exact ⟨_, seen⟩

/-- A thread that starts with its first comment is loaded either way. -/
theorem rowByRow_thread :
    (loadThread writeMany).1 = .ok () ∧
      loadThread writeRowByRow =
        (.ok (), (loadThread writeMany).2) := by
  have loaded : (loadThread writeMany).1 = .ok () := by
    decide
  refine ⟨loaded, ?_⟩
  have made : Catalog.fromTables [comments] = .ok ⟨[comments]⟩ := rfl
  refine rowByRow_of_writeMany built_comments made (mem_singleton.mpr rfl)
    (TableDef.slotsUnstamped_of_unmanaged rfl) ?_ (Prod.ext loaded rfl)
  intro existing read
  have nothing : readRows (RecordState.begin ∅).transaction comments
      (thread.map (fun row => row.primaryKeyValues comments)) =
      .ok [none, none] :=
    rfl
  rw [nothing] at read
  cases read
  exact batchParentsRead_thread

end

/--
A bulk write takes an answer that stands before the comment it answers, and the
insertion of the answer alone is refused.
-/
theorem not_rowByRow_answerFirst :
    ¬∀ (_ : Platform) (tables : List TableDef), (∀ table ∈ tables,
        ∃ builder : TableBuilder, builder.build = .ok table) →
      ∀ records : RecordTransaction, Catalog.fromTables tables = .ok records.catalog →
        ∀ table ∈ records.catalog.tables, ∀ context mode rows state after,
          (records.writeMany context table rows mode).run state = (.ok (), after) →
            (records.writeRowByRow context table rows mode).run state =
              (.ok (), after) := by
  intro always
  let _ : Platform := asciiPlatform
  have loaded : ((plain ⟨[comments]⟩).writeMany .superuser
      comments thread.reverse .insert |>.run (.begin ∅)).1 = .ok () := by
    decide
  have oneByOne := always asciiPlatform [comments] built_comments
    (.plain ⟨[comments]⟩) rfl comments (mem_singleton.mpr rfl) .superuser
    .insert thread.reverse (.begin ∅) _ (Prod.ext loaded rfl)
  have succeeds := congrArg Prod.fst oneByOne
  revert succeeds
  decide

/-! ## Slots that the clock decides -/

section

local instance visitsPlatform : Platform := asciiPlatform

end

end SlateOrm
