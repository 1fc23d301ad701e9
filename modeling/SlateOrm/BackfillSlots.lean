import SlateOrm.Backfill
import SlateOrm.StoredRows
import SlateOrm.TupleReadBack

namespace SlateOrm

open List RecordTransaction Keys Overlay RecordState

/-!
# Which builds succeed

A build stops at a row whose unique slot is held for another primary key,
whether the entry was there before or was written for an earlier row.  So the
rows it gets past are those whose slots are free in the store that it started
from and are claimed by no two of them; in which order it came to them does not
matter, and neither does how often it came to each.
-/

namespace Migration

/-! ## Rows as a build reads them -/

/-- What is known of a row that was read. -/
structure KeyedRow.ReadFrom (table : TableDef) (keyed : KeyedRow) :
    Prop where
  decoded : ∃ bytes, decode bytes table.primaryKeyTypes = .ok keyed.primaryKey
  ofRow : keyed.row.primaryKeyValues table = keyed.primaryKey

theorem readFrom_of_readKeyedRow
    {table : TableDef}
    (wellFormed : table.WellFormed)
    {pair : KeyValue} {keyed : KeyedRow}
    (read : readKeyedRow table pair = .ok keyed) :
    keyed.ReadFrom table := by
  obtain ⟨primaryKey, isKey, read⟩ := bind_eq_ok.mp read
  obtain ⟨row, isRow, read⟩ := bind_eq_ok.mp read
  cases read
  rw [decodeRowKey] at isKey
  split at isKey
  · cases isKey
  · rw [liftTuple_eq_ok] at isKey
    rw [liftSchema_eq_ok] at isRow
    refine ⟨⟨_, isKey⟩, ?_⟩
    refine primaryKeyValues_of_decodeRowColumns wellFormed ?_ isRow
    rw [length_of_decode isKey, TableDef.primaryKeyTypes, TableDef.keyTypes, length_map]

namespace KeyedRow.ReadFrom

variable
  {table : TableDef}
  {keyed other : KeyedRow}

theorem nonempty
    (read : keyed.ReadFrom table)
    (wellFormed : table.WellFormed) :
    keyed.primaryKey ≠ [] := by
  rw [← read.ofRow]
  exact primaryKeyValues_ne_nil wellFormed keyed.row

theorem beq_iff_encode
    (read : keyed.ReadFrom table) (readOther : other.ReadFrom table) :
    (other.primaryKey == keyed.primaryKey) = true ↔
      encode other.primaryKey = encode keyed.primaryKey := by
  obtain ⟨bytes, isKey⟩ := read.decoded
  obtain ⟨bytes', isKey'⟩ := readOther.decoded
  have sameLength : other.primaryKey.length = keyed.primaryKey.length :=
    (length_of_decode isKey').trans (length_of_decode isKey).symm
  rw [Value.beq_list_iff_canonical, encode, encode,
    encodeWith_eq_iff sameLength, coded_of_decode isKey, coded_of_decode isKey']

theorem owner_of_encode
    (read : keyed.ReadFrom table) (readOther : other.ReadFrom table) :
    ∃ owner, decode (encode other.primaryKey) table.primaryKeyTypes = .ok owner ∧
        ((owner == keyed.primaryKey) = true ↔
          encode other.primaryKey = encode keyed.primaryKey) := by
  obtain ⟨bytes, isKey⟩ := readOther.decoded
  obtain ⟨owner, isOwner, same⟩ := decode_encode_of_decode isKey
  refine ⟨owner, isOwner, ?_⟩
  rw [Value.beq_list_iff_canonical, same, ← Value.beq_list_iff_canonical]
  exact read.beq_iff_encode readOther

end KeyedRow.ReadFrom

variable [Platform]

section

variable
  {table : TableDef}
  {index : IndexDef}
  {keyed other : KeyedRow}

theorem backfillCheck_congr
    {first second : Snapshot}
    (same : first.get (backfillEntry table index keyed).key =
      second.get (backfillEntry table index keyed).key) :
    backfillCheck table index keyed first = backfillCheck table index keyed second := by
  rw [backfillCheck, backfillCheck, checkUnique_congr same]

theorem length_keyValues
    (index : IndexDef) (row : Row) :
    (index.keyValues row).length = index.keyDirections.length := by
  rw [IndexDef.keyValues, IndexDef.keyDirections]
  cases index.expression with
  | none => simp only [Row.indexValues, Row.project, length_map]
  | some expression => rfl

section

variable
  (wellFormed : table.WellFormed)
  (read : keyed.ReadFrom table)
  (readOther : other.ReadFrom table)

include wellFormed read readOther

theorem coded_of_backfillEntry_key
    (same : (backfillEntry table index other).key =
      (backfillEntry table index keyed).key) :
    (index.keyValues other.row).map Value.coded =
        (index.keyValues keyed.row).map Value.coded ∧
      ((backfillEntry table index keyed).enforcesUniqueness = false →
        encode other.primaryKey = encode keyed.primaryKey) := by
  obtain ⟨sameValues, samePrimaryKey⟩ := coded_of_indexEntry_key
    (length_keyValues index other.row) (length_keyValues index keyed.row)
    (readOther.nonempty wellFormed) (read.nonempty wellFormed) same
  refine ⟨sameValues, fun notUnique => samePrimaryKey ?_⟩
  rw [backfillEntry, indexEntry_eq] at notUnique
  rw [slotIsUnique, any_isNull_of_coded sameValues]
  exact notUnique

theorem enforcesUniqueness_of_key
    (sameKey : (backfillEntry table index other).key =
      (backfillEntry table index keyed).key) :
    (backfillEntry table index other).enforcesUniqueness =
      (backfillEntry table index keyed).enforcesUniqueness := by
  have sameValues := (coded_of_backfillEntry_key wellFormed read readOther sameKey).1
  rw [backfillEntry, backfillEntry, indexEntry_eq, indexEntry_eq]
  dsimp only
  rw [slotIsUnique, slotIsUnique, any_isNull_of_coded sameValues]

theorem backfillEntry_eq
    (sameKey : (backfillEntry table index other).key =
      (backfillEntry table index keyed).key)
    (samePrimaryKey : encode other.primaryKey = encode keyed.primaryKey) :
    backfillChange table index other = backfillChange table index keyed := by
  have sameValues := (coded_of_backfillEntry_key wellFormed read readOther sameKey).1
  have sameUnique : slotIsUnique index (index.keyValues other.row) =
        slotIsUnique index (index.keyValues keyed.row) := by
    rw [slotIsUnique, slotIsUnique, any_isNull_of_coded sameValues]
  rw [backfillChange, backfillChange, sameKey, backfillEntry, backfillEntry,
    indexEntry_eq, indexEntry_eq, sameUnique, samePrimaryKey]

end

/-! ## One row after another -/

/-- Whether a row is let past where another row's entry is. -/
theorem backfillCheck_of_held
    (wellFormed : table.WellFormed)
    (read : keyed.ReadFrom table) (readOther : other.ReadFrom table)
    (sameKey : (backfillEntry table index other).key =
      (backfillEntry table index keyed).key)
    {snapshot : Snapshot}
    (held : snapshot.get (backfillEntry table index keyed).key =
      some (backfillEntry table index other).value) :
    backfillCheck table index keyed snapshot =
      if encode other.primaryKey = encode keyed.primaryKey then
        .ok ()
      else
        .error (.uniqueViolation table.name index.name) := by
  obtain ⟨sameValues, samePrimaryKey⟩ :=
    coded_of_backfillEntry_key wellFormed read readOther sameKey
  rw [backfillCheck]
  cases enforces : (backfillEntry table index keyed).enforcesUniqueness with
  | false => rw [if_neg (by decide), if_pos (samePrimaryKey enforces)]
  | true =>
      have isUnique : slotIsUnique index (index.keyValues other.row) = true := by
        rw [backfillEntry, indexEntry_eq] at enforces
        rw [slotIsUnique, any_isNull_of_coded sameValues]
        exact enforces
      have isOwner : (backfillEntry table index other).value =
          encode other.primaryKey := by
        rw [backfillEntry, indexEntry_eq, isUnique, if_pos rfl]
      obtain ⟨owner, isDecoded, sameOwner⟩ := read.owner_of_encode readOther
      rw [if_pos rfl, checkUnique, held, isOwner]
      dsimp only
      rw [isDecoded]
      dsimp only [liftTuple, bind, Except.bind]
      exact ite_congr (propext sameOwner) (fun _ => rfl) (fun _ => rfl)

theorem backfillCheck_of_sameChange
    (read : keyed.ReadFrom table) (readOther : other.ReadFrom table)
    (wellFormed : table.WellFormed)
    (sameKey : (backfillEntry table index other).key =
      (backfillEntry table index keyed).key)
    (samePrimaryKey : encode other.primaryKey = encode keyed.primaryKey)
    (snapshot : Snapshot) :
    backfillCheck table index other snapshot =
      backfillCheck table index keyed snapshot := by
  have sameUnique := enforcesUniqueness_of_key wellFormed read readOther sameKey
  have sameOwner (owner : List Value) :
      (owner == other.primaryKey) = (owner == keyed.primaryKey) := by
    have equal := (read.beq_iff_encode readOther).mpr samePrimaryKey
    rw [Value.beq_list_iff_canonical] at equal
    rw [Bool.eq_iff_iff, Value.beq_list_iff_canonical,
      Value.beq_list_iff_canonical, equal]
  rw [backfillCheck, backfillCheck, sameUnique]
  split
  · rw [checkUnique, checkUnique, sameKey]
    cases snapshot.get (backfillEntry table index keyed).key with
    | none => rfl
    | some existing =>
        dsimp only
        simp only [sameOwner]
  · rfl

/-- Rows that claim one slot are one row. -/
def Agree (table : TableDef) (index : IndexDef) (first second : KeyedRow) : Prop :=
  (backfillEntry table index first).key = (backfillEntry table index second).key →
    encode first.primaryKey = encode second.primaryKey

/-- What a row is let past after another one has been. -/
theorem backfillCheck_changed_iff
    (wellFormed : table.WellFormed)
    (read : keyed.ReadFrom table) (readOther : other.ReadFrom table)
    {state : RecordState}
    (passes : backfillCheck table index other state.transaction = .ok ()) :
    backfillCheck table index keyed
        (state.changed [backfillChange table index other]).transaction = .ok () ↔
      backfillCheck table index keyed state.transaction = .ok () ∧
        Agree table index other keyed := by
  by_cases sameKey : (backfillEntry table index other).key =
      (backfillEntry table index keyed).key
  · have held : (state.changed [backfillChange table index other]).transaction.get
          (backfillEntry table index keyed).key =
        some (backfillEntry table index other).value := by
      rw [← sameKey, MemoryStore.Transaction.get, changed_pending,
        getElem?_buffer, backfillChange]
      simp [lastWrite]
    rw [backfillCheck_of_held wellFormed read readOther sameKey held]
    split
    · next samePrimaryKey =>
        rw [backfillCheck_of_sameChange read readOther wellFormed sameKey
          samePrimaryKey] at passes
        exact iff_of_true rfl ⟨passes, fun _ => samePrimaryKey⟩
    · next otherKey =>
        refine iff_of_false (by simp) ?_
        rintro ⟨_, agree⟩
        exact otherKey (agree sameKey)
  · have unseen : (state.changed [backfillChange table index other]).transaction.get
          (backfillEntry table index keyed).key =
        state.transaction.get (backfillEntry table index keyed).key := by
      refine get_changed_of_absent ?_
      intro change member
      rw [mem_singleton.mp member]
      exact sameKey
    rw [backfillCheck_congr unseen]
    constructor
    · intro passesNow
      exact ⟨passesNow, fun same => absurd same sameKey⟩
    · rintro ⟨passesNow, _⟩
      exact passesNow

end

variable {rows : List KeyedRow} {table : TableDef} {index : IndexDef}
  {pairs : List KeyValue} {store : Kv}

/--
A build stops at none of some rows exactly when each would be let past on its
own and no two of them claim one slot.
-/
theorem backfillRefusal_eq_none_iff
    (wellFormed : table.WellFormed)
    (read : ∀ keyed ∈ rows, keyed.ReadFrom table)
    (state : RecordState) :
    backfillRefusal table index state rows = none ↔ (∀ keyed ∈ rows,
        backfillCheck table index keyed state.transaction = .ok ()) ∧
      rows.Pairwise (Agree table index) := by
  induction rows generalizing state with
  | nil => simp [backfillRefusal]
  | cons first rest ih =>
      have firstRead := read first (mem_cons_self ..)
      have restRead := fun keyed member => read keyed (mem_cons_of_mem first member)
      rw [backfillRefusal, forall_mem_cons, pairwise_cons]
      cases passes : backfillCheck table index first state.transaction with
      | error error => simp
      | ok _ =>
          dsimp only
          rw [ih restRead]
          have each : (∀ keyed ∈ rest, backfillCheck table index keyed (state.changed
                  [backfillChange table index first]).transaction = .ok ()) ↔
              (∀ keyed ∈ rest, backfillCheck table index keyed
                  state.transaction = .ok ()) ∧
                ∀ keyed ∈ rest, Agree table index first keyed := by
            rw [← forall₂_and]
            refine forall₂_congr (fun keyed member => ?_)
            exact backfillCheck_changed_iff wellFormed
              (restRead keyed member) firstRead passes
          rw [each]
          tauto

/-! ## One batch after another -/

theorem backfillRefusal_congr_of_ofIndex
    {first second : RecordState}
    (same : ∀ key, OfIndex index.id key →
      first.transaction.get key = second.transaction.get key)
    (rows : List KeyedRow) :
    backfillRefusal table index first rows =
      backfillRefusal table index second rows := by
  induction rows generalizing first second with
  | nil => rfl
  | cons keyed rest ih =>
      rw [backfillRefusal, backfillRefusal, backfillCheck_congr
        (same _ (indexEntry_ofIndex ..)), ih
        (fun key ofIndex => get_changed_congr (same key ofIndex) _)]

theorem backfillRefusal_append
    (table : TableDef) (index : IndexDef) (state : RecordState)
    (first second : List KeyedRow) :
    backfillRefusal table index state (first ++ second) =
      (backfillRefusal table index state first).or (backfillRefusal table index
          (state.changed (first.map (backfillChange table index))) second) := by
  induction first generalizing state with
  | nil => rfl
  | cons keyed first ih =>
      rw [cons_append, backfillRefusal, backfillRefusal]
      cases backfillCheck table index keyed state.transaction with
      | error error => rfl
      | ok _ =>
          dsimp only
          rw [ih, changed_changed]
          rfl

theorem backfillRefusal_committed
    (table : TableDef) (index : IndexDef) (store : Kv) (changes : List Change)
    (rows : List KeyedRow) :
    backfillRefusal table index (.begin (carryOut store changes)) rows =
      backfillRefusal table index ((begin store).changed changes)
        rows :=
  backfillRefusal_congr_of_ofIndex
    (fun key _ => get_begin_carryOut store changes key) rows

theorem backfillChanges_append
    (table : TableDef) (index : IndexDef) (first second : List KeyedRow) :
    backfillChanges table index (first ++ second) = backfillChanges table index first ++
        backfillChanges table index second := by
  rw [backfillChanges, filter_append, map_append]
  rfl

theorem batchRows_eq_ok_iff
    {rows : List KeyedRow} :
    batchRows table index pairs store = .ok rows ↔
      readKeyedRows table pairs = .ok rows ∧ backfillRefusal table index (.begin store)
          (rows.filter (fun keyed => index.admits keyed.row)) = none := by
  rw [batchRows, bind_eq_ok]
  constructor
  · rintro ⟨found, read, success⟩
    split at success
    · cases success
    · next passes =>
        cases success
        exact ⟨read, passes⟩
  · rintro ⟨read, passes⟩
    refine ⟨rows, read, ?_⟩
    rw [passes]
    rfl

theorem Backfills.written
    {committed : List Kv}
    (built : Backfills table index pairs store (.ok ()) committed) :
    ∃ rows, readKeyedRows table pairs = .ok rows ∧
      backfillRefusal table index (.begin store)
        (rows.filter (fun keyed => index.admits keyed.row)) = none ∧
      Migrating.latest store committed =
        carryOut store (backfillChanges table index rows) := by
  generalize isOk : (Except.ok () : Except KernelError Unit) = outcome at built
  induction built with
  | refused _ => cases isOk
  | @finished pairs store rows _ succeeded =>
      obtain ⟨read, passes⟩ := batchRows_eq_ok_iff.mp succeeded
      exact ⟨rows, read, passes, rfl⟩
  | @resumed pairs store rows outcome committed _ succeeded _ ih =>
      obtain ⟨read, passes⟩ := batchRows_eq_ok_iff.mp succeeded
      obtain ⟨more, readMore, passesMore, isLatest⟩ := ih isOk
      refine ⟨rows ++ more, ?_, ?_, ?_⟩
      · rw [← take_append_drop BACKFILL_BATCH pairs]
        exact readKeyedRows_append read readMore
      · rw [backfillRefusal_committed] at passesMore
        rw [filter_append, backfillRefusal_append, passes]
        exact passesMore
      · rw [Migrating.latest_cons, isLatest, backfillChanges_append, carryOut_append]

/-- A build that fails could not read a row, or stopped at one. -/
theorem Backfills.stopped
    {table : TableDef} {index : IndexDef} {pairs : List KeyValue} {store : Kv}
    {error : KernelError} {committed : List Kv}
    (built : Backfills table index pairs store (.error error) committed) :
    readKeyedRows table pairs = .error error ∨ ∃ front rows, front <+: pairs ∧
        readKeyedRows table front = .ok rows ∧
        backfillRefusal table index (.begin store)
          (rows.filter (fun keyed => index.admits keyed.row)) = some error := by
  generalize isError : (Except.error error : Except KernelError Unit) = outcome at built
  induction built with
  | @refused pairs store error' failed =>
      cases isError
      have whole := take_append_drop BACKFILL_BATCH pairs
      rw [batchRows] at failed
      cases read : readKeyedRows table (pairs.take BACKFILL_BATCH) with
      | error unread =>
          rw [read] at failed
          cases failed
          left
          rw [← whole]
          exact readKeyedRows_append_of_error read _
      | ok rows =>
          rw [read] at failed
          dsimp only [bind, Except.bind] at failed
          split at failed
          · next refusal =>
              cases failed
              exact .inr ⟨_, rows, take_prefix .., read, refusal⟩
          · cases failed
  | finished => cases isError
  | @resumed pairs store rows outcome committed _ succeeded _ ih =>
      obtain ⟨read, passes⟩ := batchRows_eq_ok_iff.mp succeeded
      have whole := take_append_drop BACKFILL_BATCH pairs
      rcases ih isError with unread |
        ⟨front, more, isFront, readMore, refusal⟩
      · left
        rw [← whole]
        exact readKeyedRows_append_error read unread
      · right
        refine ⟨pairs.take BACKFILL_BATCH ++ front, rows ++ more, ?_,
          readKeyedRows_append read readMore, ?_⟩
        · conv_rhs => rw [← whole]
          exact (prefix_append_right_inj _).mpr isFront
        · rw [backfillRefusal_committed] at refusal
          rw [filter_append, backfillRefusal_append, passes]
          exact refusal

theorem outcome_of_passes
    (read : readKeyedRows table pairs = .ok rows)
    (passes : backfillRefusal table index (.begin store)
      (rows.filter (fun keyed => index.admits keyed.row)) = none)
    {outcome : Except KernelError Unit} {committed : List Kv}
    (built : Backfills table index pairs store outcome committed) :
    outcome = .ok () := by
  cases outcome with
  | ok _ => rfl
  | error error =>
      exfalso
      rcases built.stopped with unread | ⟨front, begun, ⟨rest, isWhole⟩,
        readBegun, refused⟩
      · rw [read] at unread
        cases unread
      · rw [← isWhole] at read
        cases readRest : readKeyedRows table rest with
        | error unread =>
            rw [readKeyedRows_append_error readBegun readRest] at read
            cases read
        | ok more =>
            rw [readKeyedRows_append readBegun readRest] at read
            cases read
            rw [filter_append, backfillRefusal_append, refused] at passes
            cases passes

theorem backfills_build
    (table : TableDef) (index : IndexDef) (store : Kv) :
    Backfills table index (pairsAfter table none store) store
      (((build table index).run store).1.map (fun _ => ()))
      ((build table index).run store).2 := by
  refine backfills_buildFrom 0 ?_
  rw [pairsAfter, length_map, listing]
  have fewer := length_filter_le
    (fun entry : Bytes × Bytes => (buildRange table none).contains entry.1)
    store.toList
  omega

theorem exists_of_backfillRefusal
    {state : RecordState} {error : KernelError}
    (refused : backfillRefusal table index state rows = some error) :
    ∃ before keyed after, rows = before ++ keyed :: after ∧
      backfillRefusal table index state before = none ∧
      backfillCheck table index keyed (state.changed (before.map
          (backfillChange table index))).transaction = .error error := by
  induction rows generalizing state with
  | nil => cases refused
  | cons keyed rest ih =>
      rw [backfillRefusal] at refused
      cases checked : backfillCheck table index keyed state.transaction with
      | error error' =>
          rw [checked] at refused
          cases refused
          exact ⟨[], keyed, rest, rfl, rfl, checked⟩
      | ok _ =>
          rw [checked] at refused
          obtain ⟨before, stopped, after, rfl, passes, refusal⟩ := ih refused
          refine ⟨keyed :: before, stopped, after, rfl, ?_, ?_⟩
          · rw [backfillRefusal, checked]
            exact passes
          · rw [changed_changed] at refusal
            exact refusal

/-! ## What a build leaves -/

instance (table : TableDef) (index : IndexDef) : Std.Symm (Agree table index) where
  symm _ _ agree same := (agree same.symm).symm

section

variable
  (wellFormed : table.WellFormed)
  (read : ∀ keyed ∈ rows, keyed.ReadFrom table)
  (passes : backfillRefusal table index (.begin store)
    (rows.filter (fun keyed => index.admits keyed.row)) = none)

include wellFormed read passes

theorem getElem?_backfilled
    {keyed : KeyedRow}
    (member : keyed ∈ rows)
    (admits : index.admits keyed.row = true) :
    (carryOut store (backfillChanges table index rows))[
        (backfillEntry table index keyed).key]? =
      some (backfillEntry table index keyed).value := by
  have readAdmitted : ∀ keyed ∈ rows.filter (fun keyed =>
      index.admits keyed.row), keyed.ReadFrom table :=
    fun keyed isAdmitted => read keyed (mem_filter.mp isAdmitted).1
  have agree := ((backfillRefusal_eq_none_iff wellFormed readAdmitted _).mp
    passes).2.forall_of_forall (fun _ _ _ => rfl)
  have isAdmitted : keyed ∈ rows.filter (fun keyed => index.admits keyed.row) :=
    mem_filter.mpr ⟨member, admits⟩
  have isLast : lastWrite (backfillChange table index keyed).1
      (backfillChanges table index rows) =
        some (backfillChange table index keyed).2 := by
    refine lastWrite_of_mem (mem_map_of_mem isAdmitted) ?_
    intro change isChange sameKey
    obtain ⟨other, otherAdmitted, rfl⟩ := mem_map.mp isChange
    rw [backfillEntry_eq wellFormed (readAdmitted _ isAdmitted)
      (readAdmitted _ otherAdmitted) sameKey (agree otherAdmitted isAdmitted sameKey)]
  rw [getElem?_carryOut]
  exact congrArg (Option.getD · _) isLast

/-- What a build leaves under a key was there, or was written for a row. -/
theorem getElem?_backfilled_iff
    {key value : Bytes} :
    (carryOut store (backfillChanges table index rows))[key]? = some value ↔
      (∃ keyed ∈ rows, index.admits keyed.row = true ∧
        (backfillEntry table index keyed).key = key ∧
        (backfillEntry table index keyed).value = value) ∨
      (store[key]? = some value ∧ ∀ keyed ∈ rows, index.admits keyed.row = true →
          (backfillEntry table index keyed).key ≠ key) := by
  by_cases written : ∃ keyed ∈ rows, index.admits keyed.row = true ∧
      (backfillEntry table index keyed).key = key
  · obtain ⟨keyed, member, admits, rfl⟩ := written
    have held := getElem?_backfilled wellFormed read passes member admits
    rw [held]
    constructor
    · intro same
      exact .inl ⟨keyed, member, admits, rfl, Option.some.inj same⟩
    · rintro (⟨other, otherMember, otherAdmits, sameKey, isValue⟩ |
        ⟨_, unwritten⟩)
      · have heldToo := getElem?_backfilled wellFormed read passes otherMember
          otherAdmits
        rw [sameKey, held] at heldToo
        rw [heldToo, isValue]
      · exact absurd rfl (unwritten keyed member admits)
  · have unwritten : ∀ keyed ∈ rows, index.admits keyed.row = true →
        (backfillEntry table index keyed).key ≠ key :=
      fun keyed member admits same => written ⟨keyed, member, admits, same⟩
    have kept : (carryOut store
        (backfillChanges table index rows))[key]? = store[key]? := by
      refine getElem?_carryOut_of_absent store ?_
      intro change isChange
      obtain ⟨keyed, isAdmitted, rfl⟩ := mem_map.mp isChange
      obtain ⟨member, admits⟩ := mem_filter.mp isAdmitted
      exact unwritten keyed member admits
    rw [kept]
    constructor
    · intro held
      exact .inr ⟨held, unwritten⟩
    · rintro (⟨keyed, member, admits, same, _⟩ | ⟨held, _⟩)
      · exact absurd same (unwritten keyed member admits)
      · exact held

end

end Migration

end SlateOrm
