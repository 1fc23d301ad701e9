import SlateOrm.RecordDelete
import SlateOrm.KeyLayout

namespace SlateOrm

open List Keys Write Overlay RecordState

/-!
# What writing a row writes

Writing a row buffers a list of changes that depends on the row and the one it
replaces alone.  A verified write stops at the first unique slot that another
row holds; everything before that slot has been buffered by then.
-/

/-- A key's new value, or its removal. -/
abbrev Change := Bytes × Option Bytes

namespace RecordState

/-- A state with changes buffered. -/
def changed (state : RecordState) (changes : List Change) : RecordState :=
  { state with
    transaction := { state.transaction with
      pending := Overlay.buffer state.transaction.pending changes } }

@[simp] theorem changed_changed
    (state : RecordState) (first second : List Change) :
    (state.changed first).changed second = state.changed (first ++ second) := by
  simp only [changed]
  rw [buffer_append]

@[simp] theorem changed_pending
    (state : RecordState) (changes : List Change) :
    (state.changed changes).transaction.pending =
      buffer state.transaction.pending changes :=
  rfl

@[simp] theorem changed_readings
    (state : RecordState) (changes : List Change) :
    (state.changed changes).readings = state.readings :=
  rfl

theorem get_begin
    (store : Kv) (key : Bytes) :
    (begin store).transaction.get key = store[key]? := by
  simp [MemoryStore.Transaction.get, begin, MemoryStore.Transaction.base]

theorem get_changed_of_absent
    {state : RecordState} {changes : List Change} {key : Bytes}
    (absent : ∀ change ∈ changes, change.1 ≠ key) :
    (state.changed changes).transaction.get key = state.transaction.get key := by
  rw [MemoryStore.Transaction.get, MemoryStore.Transaction.get,
    changed_pending, getElem?_buffer_of_absent _ absent]
  rfl

end RecordState

namespace Write

variable {α β : Type}

@[simp] theorem run_pure
    (value : α) (state : RecordState) :
    (pure value : Write α).run state = (.ok value, state) :=
  rfl

@[simp] theorem run_lift
    (outcome : Except KernelError α) (state : RecordState) :
    (lift outcome).run state = (outcome, state) :=
  rfl

@[simp] theorem run_reading
    (read : Snapshot → Except KernelError α) (state : RecordState) :
    (reading read).run state = (read state.transaction, state) :=
  rfl

@[simp] theorem run_put
    (key value : Bytes) (state : RecordState) :
    (put key value).run state = (.ok (), state.changed [(key, some value)]) :=
  rfl

@[simp] theorem run_delete
    (key : Bytes) (state : RecordState) :
    (delete key).run state = (.ok (), state.changed [(key, none)]) :=
  rfl

theorem run_bind
    (first : Write α) (next : α → Write β) (state : RecordState) :
    (first >>= next).run state =
      match first.run state with
      | (.ok value, between) => (next value).run between
      | (.error error, between) => (.error error, between) :=
  rfl

variable {state between : RecordState}

section

variable
  {first : Write α}
  {next : α → Write β}

theorem run_bind_of_ok
    {value : α}
    (success : first.run state = (.ok value, between)) :
    (first >>= next).run state = (next value).run between := by
  rw [run_bind, success]

theorem run_bind_of_error
    {error : KernelError}
    (failure : first.run state = (.error error, between)) :
    (first >>= next).run state = (.error error, between) := by
  rw [run_bind, failure]

/-- A sequence answers exactly when its parts do, one after the other. -/
theorem run_bind_eq_ok
    {state after : RecordState} {result : β} :
    (first >>= next).run state = (.ok result, after) ↔
      ∃ value between, first.run state = (.ok value, between) ∧
        (next value).run between = (.ok result, after) := by
  rcases outcome : first.run state with ⟨answer, between⟩
  cases answer with
  | error error =>
      rw [run_bind_of_error outcome]
      simp
  | ok value =>
      rw [run_bind_of_ok outcome]
      simp

end

section

variable
  {read : Snapshot → Except KernelError α}
  {next : α → Write β}

theorem run_reading_bind_of_ok
    {state : RecordState} {value : α}
    (success : read state.transaction = .ok value) :
    (reading read >>= next).run state = (next value).run state := by
  apply run_bind_of_ok
  rw [run_reading, success]

theorem run_reading_bind_of_error
    {state : RecordState} {error : KernelError}
    (failure : read state.transaction = .error error) :
    (reading read >>= next).run state = (.error error, state) := by
  apply run_bind_of_error
  rw [run_reading, failure]

theorem run_reading_bind_eq_ok
    {state after : RecordState} {result : β} :
    (reading read >>= next).run state = (.ok result, after) ↔
      ∃ value, read state.transaction = .ok value ∧
        (next value).run state = (.ok result, after) := by
  cases outcome : read state.transaction with
  | error error =>
      rw [run_reading_bind_of_error outcome]
      simp
  | ok value =>
      rw [run_reading_bind_of_ok outcome]
      simp

end

/-- A loop of writes that cannot fail buffers the changes of each. -/
theorem run_forEach_changes
    {operation : α → Write Unit} {changes : α → List Change} {values : List α}
    (each : ∀ value ∈ values, ∀ state,
      (operation value).run state = (.ok (), state.changed (changes value)))
    (state : RecordState) :
    (forEach operation values).run state =
      (.ok (), state.changed (values.flatMap changes)) := by
  induction values generalizing state with
  | nil => rfl
  | cons value rest ih =>
      rw [forEach, run_bind_of_ok (each value (mem_cons_self ..) state),
        ih (fun other member => each other
        (mem_cons_of_mem _ member)), changed_changed, flatMap_cons]

theorem run_forEach_ok
    {operation : α → Write Unit} {values : List α}
    (each : ∀ value ∈ values, ∀ state,
      ∃ after, (operation value).run state = (.ok (), after))
    (state : RecordState) :
    ∃ after, (forEach operation values).run state = (.ok (), after) := by
  induction values generalizing state with
  | nil => exact ⟨state, rfl⟩
  | cons value rest ih =>
      obtain ⟨between, first⟩ := each value (mem_cons_self ..) state
      rw [forEach, run_bind_of_ok first]
      exact ih (fun other member => each other (mem_cons_of_mem _ member)) between

theorem run_forEach_unless
    {skip : α → Bool} {operation : α → Write Unit} {change : α → Change}
    {values : List α}
    (each : ∀ value ∈ values, skip value = false → ∀ state,
      (operation value).run state = (.ok (), state.changed [change value]))
    (state : RecordState) :
    (forEach (fun value => if skip value then pure () else operation value)
        values).run state =
      (.ok (), state.changed
        ((values.filter (fun value => !skip value)).map change)) := by
  induction values generalizing state with
  | nil => rfl
  | cons value rest ih =>
      have inRest := ih (fun other member => each other (mem_cons_of_mem _ member))
      rw [forEach]
      cases skipped : skip value with
      | true =>
          rw [if_pos rfl, run_bind_of_ok (run_pure () state), inRest,
            filter_cons_of_neg]
          simp [skipped]
      | false =>
          have written := each value (mem_cons_self ..) skipped state
          rw [if_neg Bool.false_ne_true, run_bind_of_ok written, inRest,
            changed_changed, filter_cons_of_pos, map_cons]
          · rfl
          · simp [skipped]

end Write

namespace RecordTransaction

/-- The row that is written: its managed columns as the clock supplies them. -/
def stamped (records : RecordTransaction) (table : TableDef) (row : Row)
    (previous : Option Row) (readings : Nat) : Row :=
  if table.isManaged then
    ⟨stampedValues table previous (records.clock readings) row.values⟩
  else
    row

/-- A state after the clock was read for a row of a table. -/
def ticked (table : TableDef) (state : RecordState) : RecordState :=
  if table.isManaged then
    { state with readings := state.readings + 1 }
  else
    state

@[simp] theorem ticked_transaction
    (table : TableDef) (state : RecordState) :
    (ticked table state).transaction = state.transaction := by
  rw [ticked]
  split <;> rfl

/-- Stamping reads the clock once, where a column is managed. -/
theorem run_stamp
    (records : RecordTransaction) (table : TableDef) (row : Row)
    (previous : Option Row) (state : RecordState) :
    (records.stamp table row previous).run state =
      (.ok (records.stamped table row previous state.readings),
        ticked table state) := by
  rw [stamp, stamped, ticked]
  split
  · rfl
  · rfl

variable {indexes : List IndexDef} {table : TableDef} {index : IndexDef}
  {entry : Keys.IndexEntry} {primaryKey : List Value} {row : Row}
  {previous : Option Row} {changes : List Change} {first second : Change}

theorem eq_of_sameKey
    (distinct : (indexes.map IndexDef.id).Nodup) {first second : IndexDef}
    (firstMember : first ∈ indexes)
    (secondMember : second ∈ indexes)
    {key : Bytes} (ofFirst : OfIndex first.id key)
    (ofSecond : OfIndex second.id key) :
    first = second :=
  inj_on_of_nodup_map distinct firstMember secondMember (ofFirst.unique ofSecond)

theorem findSome?_eq_of_forall
    {α β : Type} {first second : α → Option β} {values : List α}
    (same : ∀ value ∈ values, first value = second value) :
    values.findSome? first = values.findSome? second := by
  induction values with
  | nil => rfl
  | cons value rest ih =>
      rw [findSome?_cons, findSome?_cons, same value (mem_cons_self ..), ih
        (fun other member => same other (mem_cons_of_mem _ member))]

theorem checkUnique_congr
    {snapshot snapshot' : Snapshot}
    (same : snapshot.get entry.key = snapshot'.get entry.key) :
    checkUnique table index entry primaryKey snapshot =
      checkUnique table index entry primaryKey snapshot' := by
  rw [checkUnique, checkUnique, same]

theorem run_putEntry
    (table : TableDef) (row : Row) (index : IndexDef) (entry : IndexEntry)
    (state : RecordState) :
    (do
      if true && entry.enforcesUniqueness then
        reading (checkUnique table index entry (row.primaryKeyValues table))
      put entry.key entry.value : Write Unit).run state =
      if entry.enforcesUniqueness then
        match checkUnique table index entry (row.primaryKeyValues table)
            state.transaction with
        | .ok _ => (.ok (), state.changed [(entry.key, some entry.value)])
        | .error error => (.error error, state)
      else
        (.ok (), state.changed [(entry.key, some entry.value)]) := by
  cases enforces : entry.enforcesUniqueness with
  | false => rfl
  | true =>
      cases checked : checkUnique table index entry
          (row.primaryKeyValues table) state.transaction with
      | ok _ => exact run_reading_bind_of_ok checked
      | error error => exact run_reading_bind_of_error checked

variable [Platform]

/-! ## The changes of one index -/

section

variable
  (table : TableDef) (row : Row) (previous : Option Row) (index : IndexDef)

/-- The entries of a replaced row that the new row does not have. -/
def droppedEntries : List Keys.IndexEntry :=
  (previousEntries table index previous).filter
    (fun old => !unchanged old (admittedEntries table index row))

/-- The entries of a new row that the replaced one does not have. -/
def addedEntries : List Keys.IndexEntry :=
  (admittedEntries table index row).filter
    (fun new => !unchanged new (previousEntries table index previous))

/-- The removals that replacing a row makes in an index. -/
def droppedChanges : List Change :=
  (droppedEntries table row previous index).map (fun entry => (entry.key, none))

/-- What replacing a row changes in an index. -/
def indexChanges : List Change :=
  droppedChanges table row previous index ++ (addedEntries table row previous index).map
      (fun entry => (entry.key, some entry.value))

/-- What writing a row in the place of another changes. -/
def rowChanges : List Change :=
  table.indexes.flatMap (indexChanges table row previous) ++
    [(Keys.rowKey table (row.primaryKeyValues table), some (encodeBody table row))]

/-- What erasing a row changes. -/
def eraseChanges : List Change :=
  table.indexes.flatMap (fun index =>
    (admittedEntries table index row).map (fun entry => (entry.key, none))) ++
    [(Keys.rowKey table (row.primaryKeyValues table), none)]

theorem run_dropEntries
    (state : RecordState) :
    (forEach (fun old : IndexEntry =>
      if unchanged old (admittedEntries table index row) then
        pure ()
      else
        Write.delete old.key) (previousEntries table index previous)).run
        state =
      (.ok (), state.changed (droppedChanges table row previous index)) :=
  run_forEach_unless (fun old _ _ => run_delete old.key) state

/-- Without a check of the slots an index only buffers its changes. -/
theorem run_writeIndex_unverified
    (state : RecordState) :
    (writeIndex table row previous false index).run state =
      (.ok (), state.changed (indexChanges table row previous index)) := by
  rw [writeIndex, run_bind_of_ok (run_dropEntries ..), indexChanges,
    ← changed_changed]
  exact run_forEach_unless (fun new _ _ => run_put new.key new.value) _

/-- Why a unique slot that an index takes newly cannot be taken. -/
def slotRefusal (snapshot : Snapshot) (index : IndexDef) : Option KernelError :=
  (addedEntries table row previous index).findSome? (fun new =>
    if new.enforcesUniqueness then
      match checkUnique table index new (row.primaryKeyValues table)
          snapshot with
      | .ok _ => none
      | .error error => some error
    else
      none)

end

theorem admittedEntries_of_unique
    (wellFormed : index.WellFormed table.columns)
    (isUnique : index.unique = true)
    (row : Row) :
    admittedEntries table index row = [] ∨
      ∃ entry, admittedEntries table index row = [entry] := by
  have notText : index.text = false := by
    cases isText : index.text with
    | false => rfl
    | true =>
        rw [(wellFormed.text isText).1] at isUnique
        cases isUnique
  rw [admittedEntries]
  split
  · right
    refine ⟨indexEntry table index (index.keyValues row)
      (row.primaryKeyValues table), ?_⟩
    rw [entriesFor, IndexDef.keySets, notText]
    rfl
  · left
    rfl

theorem enforcesUniqueness_of_mem
    (member : entry ∈ admittedEntries table index row)
    (enforces : entry.enforcesUniqueness = true) :
    index.unique = true := by
  obtain ⟨_, values, _, rfl⟩ := mem_admittedEntries.mp member
  rw [indexEntry_eq, slotIsUnique] at enforces
  exact (Bool.and_eq_true_iff.mp enforces).1

theorem key_ne_of_mem_droppedChanges
    {change : Change}
    (dropped : change ∈ droppedChanges table row previous index)
    (member : entry ∈ admittedEntries table index row) :
    change.1 ≠ entry.key := by
  obtain ⟨old, inDropped, rfl⟩ := mem_map.mp dropped
  have notKept := (mem_filter.mp inDropped).2
  rintro sameKey
  rw [unchanged, Bool.not_eq_true', any_eq_false] at notKept
  exact notKept entry member (beq_iff_eq.mpr sameKey.symm)

/--
Replacing an index's entries with checks: a refused slot stops it after the
old entries have been dropped.
-/
theorem run_writeIndex_verified
    (wellFormed : index.WellFormed table.columns)
    (row : Row) (previous : Option Row) (state : RecordState) :
    (writeIndex table row previous true index).run state =
      match slotRefusal table row previous state.transaction index with
      | none => (.ok (), state.changed (indexChanges table row previous index))
      | some error =>
          (.error error, state.changed (droppedChanges table row previous index)) := by
  rw [writeIndex, run_bind_of_ok (run_dropEntries ..), slotRefusal,
    addedEntries, indexChanges, addedEntries]
  cases isUnique : index.unique with
  | false =>
      have plain : ∀ entry ∈ admittedEntries table index row,
          entry.enforcesUniqueness = false := by
        intro entry member
        cases enforces : entry.enforcesUniqueness with
        | false => rfl
        | true =>
            rw [enforcesUniqueness_of_mem member enforces] at isUnique
            cases isUnique
      have accepted : (filter (fun new => !unchanged new
            (previousEntries table index previous))
            (admittedEntries table index row)).findSome? (fun new =>
              if new.enforcesUniqueness then
                match checkUnique table index new
                    (row.primaryKeyValues table) state.transaction with
                | .ok _ => none
                | .error error => some error
              else
                none) = none := by
        apply findSome?_eq_none_iff.mpr
        intro entry member
        rw [plain entry (mem_filter.mp member).1, if_neg]
        exact Bool.false_ne_true
      rw [accepted, ← changed_changed]
      refine run_forEach_unless (fun entry member _ between => ?_) _
      rw [run_putEntry, plain entry member]
      rfl
  | true =>
      rcases admittedEntries_of_unique wellFormed isUnique row with
        none_ | ⟨entry, one⟩
      · rw [none_]
        simp only [forEach, filter_nil, findSome?_nil, map_nil, append_nil]
        rfl
      · have member : entry ∈ admittedEntries table index row := by
          rw [one]
          exact mem_singleton.mpr rfl
        have sameSlot : (state.changed (droppedChanges table row previous index)
              ).transaction.get entry.key =
              state.transaction.get entry.key :=
          get_changed_of_absent (fun change dropped =>
            key_ne_of_mem_droppedChanges dropped member)
        rw [one]
        cases kept : unchanged entry (previousEntries table index previous) with
        | true =>
            have dropped : filter (fun new => !unchanged new
                (previousEntries table index previous)) [entry] = [] := by
              rw [filter_cons_of_neg (by simp [kept]), filter_nil]
            simp only [forEach, kept, if_true, dropped,
              findSome?_nil, map_nil, append_nil]
            rfl
        | false =>
            have added : filter (fun new => !unchanged new
                (previousEntries table index previous)) [entry] =
                [entry] := by
              rw [filter_cons_of_pos (by simp [kept]), filter_nil]
            rw [added, forEach, run_bind]
            simp only [kept, Bool.false_eq_true, if_false]
            rw [run_putEntry, checkUnique_congr sameSlot]
            cases enforces : entry.enforcesUniqueness with
            | false => simp [enforces, forEach]
            | true =>
                cases checked : checkUnique table index entry
                    (row.primaryKeyValues table) state.transaction with
                | ok _ => simp [enforces, checked, forEach]
                | error error => simp [enforces, checked]

/-! ## The changes of all indexes -/

theorem ofIndex_of_mem_previousEntries
    (member : entry ∈ previousEntries table index previous) :
    OfIndex index.id entry.key := by
  cases previous with
  | none => cases member
  | some old => exact ofIndex_of_mem_admittedEntries member

theorem ofIndex_of_mem_indexChanges
    {change : Change}
    (member : change ∈ indexChanges table row previous index) :
    OfIndex index.id change.1 := by
  rcases mem_append.mp member with dropped | added
  · obtain ⟨old, inDropped, rfl⟩ := mem_map.mp dropped
    exact ofIndex_of_mem_previousEntries (mem_filter.mp inDropped).1
  · obtain ⟨new, inAdded, rfl⟩ := mem_map.mp added
    exact ofIndex_of_mem_admittedEntries (mem_filter.mp inAdded).1

/-- Changes of other indexes leave the slot check of an index as it was. -/
theorem slotRefusal_changed
    {state : RecordState}
    (others : ∀ change ∈ changes, ¬OfIndex index.id change.1) :
    slotRefusal table row previous (state.changed changes).transaction index =
      slotRefusal table row previous state.transaction index := by
  rw [slotRefusal, slotRefusal]
  apply findSome?_eq_of_forall
  intro entry member
  have ofIndex := ofIndex_of_mem_admittedEntries (mem_filter.mp member).1
  have sameSlot : (state.changed changes).transaction.get entry.key =
        state.transaction.get entry.key :=
    get_changed_of_absent (fun change inChanges same =>
      others change inChanges (same ▸ ofIndex))
  rw [checkUnique_congr sameSlot]

/--
The first slot that is refused among those a row newly takes, with the changes
that its indexes have buffered by then.
-/
def refusedAfter (table : TableDef) (row : Row) (previous : Option Row)
    (snapshot : Snapshot) :
    List IndexDef → Option (KernelError × List Change)
  | [] => none
  | index :: rest =>
      match slotRefusal table row previous snapshot index with
      | some error => some (error, droppedChanges table row previous index)
      | none =>
          (refusedAfter table row previous snapshot rest).map (fun refused =>
              (refused.1, indexChanges table row previous index ++ refused.2))

/-- Changes of other indexes leave what refuses a row as it was. -/
theorem refusedAfter_changed
    {state : RecordState}
    (others : ∀ index ∈ indexes, ∀ change ∈ changes, ¬OfIndex index.id change.1) :
    refusedAfter table row previous (state.changed changes).transaction indexes =
      refusedAfter table row previous state.transaction indexes := by
  induction indexes with
  | nil => rfl
  | cons index rest ih =>
      rw [refusedAfter, refusedAfter, slotRefusal_changed
        (others index (mem_cons_self ..)), ih
        (fun other member => others other (mem_cons_of_mem _ member))]

/-- A verified write of the entries of all indexes. -/
theorem run_writeIndexes_verified
    (distinct : (indexes.map IndexDef.id).Nodup)
    (wellFormed : ∀ index ∈ indexes, index.WellFormed table.columns)
    (row : Row) (previous : Option Row) (state : RecordState) :
    (forEach (writeIndex table row previous true) indexes).run state =
      match refusedAfter table row previous state.transaction indexes with
      | none =>
          (.ok (), state.changed (indexes.flatMap (indexChanges table row previous)))
      | some (error, changes) => (.error error, state.changed changes) := by
  induction indexes generalizing state with
  | nil => rfl
  | cons index rest ih =>
      rw [map_cons, nodup_cons] at distinct
      have written := run_writeIndex_verified
        (wellFormed index (mem_cons_self ..)) row previous state
      rw [forEach, refusedAfter]
      cases refused : slotRefusal table row previous state.transaction index with
      | some error =>
          rw [refused] at written
          rw [run_bind_of_error written]
      | none =>
          rw [refused] at written
          have others : ∀ other ∈ rest,
              ∀ change ∈ indexChanges table row previous index,
                ¬OfIndex other.id change.1 := by
            intro other inRest change inChanges ofOther
            have sameId := (ofIndex_of_mem_indexChanges inChanges).unique ofOther
            exact distinct.1 (sameId ▸ mem_map_of_mem inRest)
          rw [run_bind_of_ok written, ih distinct.2
            (fun other member => wellFormed other (mem_cons_of_mem _ member)),
            refusedAfter_changed others]
          cases refusedAfter table row previous state.transaction rest with
          | none
          | some later => simp

/-! ## Changes agree -/

theorem value_eq_of_mem_admittedEntries
    {first second : IndexEntry}
    (wellFormed : index.WellFormed table.columns)
    (firstMember : first ∈ admittedEntries table index row)
    (secondMember : second ∈ admittedEntries table index row) :
    first.value = second.value := by
  cases isUnique : index.unique with
  | true =>
      rcases admittedEntries_of_unique wellFormed isUnique row with
        none_ | ⟨entry, one⟩
      · rw [none_] at firstMember
        cases firstMember
      · rw [one, mem_singleton] at firstMember secondMember
        rw [firstMember, secondMember]
  | false =>
      have valueless : ∀ entry ∈ admittedEntries table index row, entry.value = [] := by
        intro entry member
        obtain ⟨_, values, _, rfl⟩ := mem_admittedEntries.mp member
        rw [indexEntry_eq, slotIsUnique, isUnique]
        rfl
      rw [valueless first firstMember, valueless second secondMember]

/-- An index writes no key twice with different values. -/
theorem indexChanges_agree
    (wellFormed : index.WellFormed table.columns)
    (firstMember : first ∈ indexChanges table row previous index)
    (secondMember : second ∈ indexChanges table row previous index)
    (sameKey : first.1 = second.1) :
    first.2 = second.2 := by
  rcases mem_append.mp firstMember with dropped | added
  · rcases mem_append.mp secondMember with dropped' | added'
    · obtain ⟨old, _, rfl⟩ := mem_map.mp dropped
      obtain ⟨old', _, rfl⟩ := mem_map.mp dropped'
      rfl
    · obtain ⟨new', inAdded', rfl⟩ := mem_map.mp added'
      exact absurd sameKey (key_ne_of_mem_droppedChanges dropped
        (mem_filter.mp inAdded').1)
  · obtain ⟨new, inAdded, rfl⟩ := mem_map.mp added
    rcases mem_append.mp secondMember with dropped' | added'
    · exact absurd sameKey.symm (key_ne_of_mem_droppedChanges dropped'
        (mem_filter.mp inAdded).1)
    · obtain ⟨new', inAdded', rfl⟩ := mem_map.mp added'
      exact congrArg some (value_eq_of_mem_admittedEntries wellFormed
        (mem_filter.mp inAdded).1 (mem_filter.mp inAdded').1)

theorem flatMap_indexChanges_agree
    (wellFormed : table.WellFormed)
    (firstMember :
      first ∈ table.indexes.flatMap (indexChanges table row previous))
    (secondMember : second ∈ table.indexes.flatMap (indexChanges table row previous))
    (sameKey : first.1 = second.1) :
    first.2 = second.2 := by
  obtain ⟨index, inIndexes, inChanges⟩ := mem_flatMap.mp firstMember
  obtain ⟨index', inIndexes', inChanges'⟩ := mem_flatMap.mp secondMember
  have sameIndex : index = index' :=
    eq_of_sameKey wellFormed.indexIds inIndexes inIndexes'
      (ofIndex_of_mem_indexChanges inChanges)
      (sameKey ▸ ofIndex_of_mem_indexChanges inChanges')
  subst sameIndex
  exact indexChanges_agree (wellFormed.indexes index inIndexes) inChanges
    inChanges' sameKey

theorem subset_of_refusedAfter
    {snapshot : Snapshot} {error : KernelError}
    (refused : refusedAfter table row previous snapshot indexes =
      some (error, changes)) :
    changes ⊆ indexes.flatMap (indexChanges table row previous) := by
  induction indexes generalizing changes with
  | nil => cases refused
  | cons index rest ih =>
      rw [refusedAfter] at refused
      rw [flatMap_cons]
      split at refused
      · cases refused
        exact subset_append_of_subset_left _ (subset_append_left _ _)
      · obtain ⟨⟨_, later⟩, inRest, same⟩ := Option.map_eq_some_iff.mp refused
        simp only [Prod.mk.injEq] at same
        obtain ⟨rfl, rfl⟩ := same
        exact append_subset.mpr ⟨subset_append_left _ _,
          subset_append_of_subset_right _ (ih inRest)⟩

/-! ## The changes of a row -/

theorem run_writeRowWith_unverified
    (records : RecordTransaction) (table : TableDef) (row : Row)
    (previous : Option Row) (state : RecordState) :
    (records.writeRowWith table row previous false).run state =
      (.ok (), (ticked table state).changed (rowChanges table
          (records.stamped table row previous state.readings) previous)) := by
  have written := run_forEach_changes (fun index (_ : index ∈ table.indexes) =>
      run_writeIndex_unverified table
        (records.stamped table row previous state.readings) previous index)
    (ticked table state)
  rw [writeRowWith, run_bind_of_ok (run_stamp ..),
    run_bind_of_ok written, run_put, changed_changed, rowChanges]

/-- A write of a row ends at the first taken slot, with what it buffered. -/
theorem run_writeRow
    (wellFormed : table.WellFormed)
    (records : RecordTransaction) (row : Row) (previous : Option Row)
    (state : RecordState) :
    (records.writeRow table row previous).run state =
      let written := records.stamped table row previous state.readings
      match refusedAfter table written previous state.transaction
          table.indexes with
      | none =>
          (.ok (), (ticked table state).changed (rowChanges table written previous))
      | some (error, changes) =>
          (.error error, (ticked table state).changed changes) := by
  have written := run_writeIndexes_verified wellFormed.indexIds
    wellFormed.indexes (records.stamped table row previous state.readings)
    previous (ticked table state)
  rw [ticked_transaction] at written
  rw [writeRow, writeRowWith, run_bind_of_ok (run_stamp ..)]
  simp only
  cases refused : refusedAfter table
      (records.stamped table row previous state.readings) previous
      state.transaction table.indexes with
  | none =>
      rw [refused] at written
      rw [run_bind_of_ok written, run_put, changed_changed, rowChanges]
  | some refusal =>
      rw [refused] at written
      rw [run_bind_of_error written]

theorem get_rowChanges_of_ne
    {table other : TableDef}
    (differs : rowKey other primaryKey ≠ rowKey table (row.primaryKeyValues table))
    (previous : Option Row) (state : RecordState) :
    (state.changed (rowChanges table row
        previous)).transaction.get (rowKey other primaryKey) =
      state.transaction.get (rowKey other primaryKey) := by
  refine get_changed_of_absent (fun change member sameKey => ?_)
  rcases mem_append.mp member with inIndexes | isRow
  · obtain ⟨index, _, inChanges⟩ := mem_flatMap.mp inIndexes
    have ofIndex := ofIndex_of_mem_indexChanges inChanges
    rw [sameKey] at ofIndex
    exact not_ofIndex_rowKey _ _ _ ofIndex
  · rw [mem_singleton.mp isRow] at sameKey
    exact differs sameKey.symm

/-- Erasing a row never fails, and buffers its deletes. -/
theorem run_eraseRow
    (table : TableDef) (row : Row) (state : RecordState) :
    (eraseRow table row).run state =
      (.ok (), state.changed (eraseChanges table row)) := by
  have eachIndex : ∀ index ∈ table.indexes, ∀ between,
      (forEach (fun entry : IndexEntry => Write.delete entry.key)
        (admittedEntries table index row)).run between =
        (.ok (), between.changed ((admittedEntries table index row).map
            (fun entry => (entry.key, none)))) := by
    intro index _ between
    rw [map_eq_flatMap]
    exact run_forEach_changes (fun entry _ => run_delete entry.key) between
  rw [eraseRow, run_bind_of_ok (run_forEach_changes eachIndex state),
    run_delete, changed_changed, eraseChanges]

end RecordTransaction

end SlateOrm
