import SlateOrm.BatchedScan
import SlateOrm.CatalogStore
import SlateOrm.KeyRangeLaws
import SlateOrm.MemoryStoreIsolation
import SlateOrm.Migration
import SlateOrm.RecordWrites

namespace SlateOrm

open List Keys Write Overlay Migrating RecordState

/-!
# Building an index over stored rows

A build works through the rows of its table in batches.  Between two batches
nothing but entries of the index has changed, so the rows it works through are
the ones that were there when it began, each once.  What a build that succeeds
leaves in its index are the entries it computes for these rows.
-/

/-! ## Transactions one after the other -/

variable {key : Bytes}

namespace RecordState

theorem get_changed_congr
    {first second : RecordState}
    (same : first.transaction.get key = second.transaction.get key)
    (changes : List Change) :
    (first.changed changes).transaction.get key =
      (second.changed changes).transaction.get key := by
  rw [MemoryStore.Transaction.get, MemoryStore.Transaction.get] at same ⊢
  rw [changed_pending, changed_pending, getElem?_buffer, getElem?_buffer]
  cases lastWrite key changes with
  | none => exact same
  | some value => cases value <;> rfl

theorem get_begin_carryOut
    (store : Kv) (changes : List Change) (key : Bytes) :
    (begin (carryOut store changes)).transaction.get key =
      ((begin store).changed changes).transaction.get key := by
  rw [get_begin, getElem?_carryOut, MemoryStore.Transaction.get,
    changed_pending, getElem?_buffer]
  simp only [begin, Std.ExtTreeMap.getElem?_empty, Option.or_none]
  cases lastWrite key changes <;> rfl

end RecordState

namespace Migrating

variable {α β : Type}

@[simp] theorem run_pure
    (value : α) (store : Kv) :
    (pure value : Migrating α).run store = (.ok value, []) :=
  rfl

@[simp] theorem run_refuse
    (error : KernelError) (store : Kv) :
    (refuse error : Migrating α).run store = (.error error, []) :=
  rfl

variable {committed : List Kv} {store : Kv}

theorem run_bind_of_error
    {first : Migrating α} {next : α → Migrating β} {error : KernelError}
    (failed : first.run store = (.error error, committed)) :
    (first >>= next).run store = (.error error, committed) := by
  dsimp only [run, bind] at failed ⊢
  rw [failed]

theorem run_bind_of_ok
    {first : Migrating α} {next : α → Migrating β} {value : α}
    (succeeded : first.run store = (.ok value, committed)) :
    (first >>= next).run store = (((next value).run (latest store committed)).1,
        committed ++ ((next value).run (latest store committed)).2) := by
  dsimp only [run, bind] at succeeded ⊢
  rw [succeeded]

@[simp] theorem latest_nil
    (store : Kv) :
    latest store [] = store :=
  rfl

@[simp] theorem latest_cons
    (store next : Kv) (committed : List Kv) :
    latest store (next :: committed) = latest next committed := by
  rw [latest, latest]
  cases committed with
  | nil => rfl
  | cons other rest =>
      rw [getLast?_cons_cons]
      cases found : (other :: rest).getLast? with
      | none => simp at found
      | some _ => rfl

@[simp] theorem latest_append
    (store : Kv) (first second : List Kv) :
    latest store (first ++ second) = latest (latest store first) second := by
  induction first generalizing store with
  | nil => rfl
  | cons next first ih => simp [ih]

theorem latest_eq_or_mem
    (store : Kv) (committed : List Kv) :
    latest store committed = store ∨ latest store committed ∈ committed := by
  rw [latest]
  cases found : committed.getLast? with
  | none => exact .inl rfl
  | some last => exact .inr (mem_of_getLast? found)

theorem latest_mem
    (store : Kv) (committed : List Kv) :
    latest store committed ∈ store :: committed :=
  mem_cons.mpr (latest_eq_or_mem store committed)

theorem latest_take_mem
    (store : Kv) (committed : List Kv) (count : Nat) :
    latest store (committed.take count) ∈ store :: committed := by
  rcases latest_eq_or_mem store (committed.take count) with
    same | member
  · rw [same]
    exact mem_cons_self ..
  · exact mem_cons_of_mem _ (mem_of_mem_take member)

theorem getElem?_latest
    (kept : ∀ after ∈ committed, after[key]? = store[key]?) :
    (latest store committed)[key]? = store[key]? := by
  rcases latest_eq_or_mem store committed with same | member
  · rw [same]
  · exact kept _ member

theorem run_transact_of_ok
    {body : Write α} {value : α} {changes : List Change}
    (succeeded : body.run (.begin store) = (.ok value, (begin store).changed changes)) :
    (transact body).run store = (.ok value, [carryOut store changes]) := by
  rw [run, transact, succeeded]
  rfl

theorem run_transact_of_error
    {body : Write α} {error : KernelError}
    (failed : (body.run (.begin store)).1 = .error error) :
    (transact body).run store = (.error error, []) := by
  rw [run, transact]
  cases ran : body.run (.begin store) with
  | mk outcome after =>
      rw [ran] at failed
      cases failed
      rfl

end Migrating

namespace Migration

/-! ## The rows of a table -/

/-- What is stored under the keys of a table after one of them, in order. -/
def pairsAfter (table : TableDef) (after : Option Bytes) (store : Kv) : List KeyValue :=
  (Overlay.listing (buildRange table after).contains store).map
    (fun entry => ⟨entry.1, entry.2⟩)

theorem scan_begin
    (store : Kv) (range : KeyRange) :
    (begin store).transaction.scan range .ascending =
      (listing range.contains store).map (fun entry => ⟨entry.1, entry.2⟩) := by
  rw [MemoryStore.Transaction.scan_eq]
  simp [MemoryStore.entriesIn, listing, begin, MemoryStore.Transaction.base]

theorem contains_buildRange
    (table : TableDef) (after : Option Bytes) (key : Bytes) :
    (buildRange table after).contains key = true ↔ tablePrefix table <+: key ∧
        ∀ last ∈ after, compare last key = .lt := by
  cases after with
  | none => simp [buildRange]
  | some last =>
      rw [buildRange, KeyRange.contains_intersect, KeyRange.contains_ofPrefix,
        KeyRange.contains, Bool.and_eq_true, KeyRange.aboveStart_iff]
      simp [KeyRange.belowEnd]

variable {table : TableDef} {after : Option Bytes} {store : Kv}
  {first second : List KeyValue} {error : KernelError} {rows : List KeyedRow}
  {pairs : List KeyValue} {keyed : KeyedRow} {index : IndexDef}
  {state : RecordState}

/-- A walk resumed after a row goes on with the rows behind it. -/
theorem pairsAfter_resumed
    {batch rest : List KeyValue} {last : KeyValue}
    (parts : pairsAfter table after store = batch ++ last :: rest) :
    pairsAfter table (some last.key) store = rest := by
  rw [pairsAfter] at parts
  obtain ⟨front, onward, whole, rfl, isTail⟩ := map_eq_append_iff.mp parts
  obtain ⟨entry, others, rfl, rfl, rfl⟩ := map_eq_cons_iff.mp isTail
  rw [pairsAfter]
  refine congrArg _ (listing_resumed (fun key => ?_) whole)
  have inRange : (entry.1, entry.2) ∈
      listing (buildRange table after).contains store := by
    rw [whole]
    simp
  have afterEntry := (contains_buildRange table after entry.1).mp
    (mem_listing.mp inRange).1
  rw [Bool.eq_iff_iff, Bool.and_eq_true, contains_buildRange,
    contains_buildRange, beq_iff_eq]
  constructor
  · rintro ⟨ofTable, later⟩
    have beyond := later entry.1 rfl
    exact ⟨⟨ofTable, fun last isLast =>
      Std.TransCmp.lt_trans (afterEntry.2 last isLast) beyond⟩, beyond⟩
  · rintro ⟨⟨ofTable, _⟩, beyond⟩
    refine ⟨ofTable, ?_⟩
    rintro last ⟨⟩
    exact beyond

theorem pairsAfter_congr
    {first second : Kv} (after : Option Bytes)
    (agree : ∀ key, tablePrefix table <+: key → first[key]? = second[key]?) :
    pairsAfter table after first = pairsAfter table after second := by
  rw [pairsAfter, pairsAfter]
  refine congrArg _ (listing_congr (fun key inRange => ?_))
  exact agree key ((contains_buildRange table after key).mp inRange).1

variable {pair : KeyValue}

/-- A walk from the start meets every row that is stored. -/
theorem mem_pairsAfter :
    pair ∈ pairsAfter table none store ↔ tablePrefix table <+: pair.key ∧
        store[pair.key]? = some pair.value := by
  rw [pairsAfter, mem_map]
  constructor
  · rintro ⟨entry, listed, rfl⟩
    obtain ⟨inRange, held⟩ := mem_listing.mp listed
    exact ⟨((contains_buildRange table none entry.1).mp inRange).1, held⟩
  · rintro ⟨ofTable, held⟩
    refine ⟨(pair.key, pair.value), mem_listing.mpr ⟨?_, held⟩, rfl⟩
    exact (contains_buildRange table none pair.key).mpr
      ⟨ofTable, fun _ nothing => by cases nothing⟩

/-! ## Reading rows -/

theorem readKeyedRows_append
    {rows more : List KeyedRow}
    (read : readKeyedRows table first = .ok rows)
    (readMore : readKeyedRows table second = .ok more) :
    readKeyedRows table (first ++ second) = .ok (rows ++ more) := by
  induction first generalizing rows with
  | nil =>
      cases read
      exact readMore
  | cons pair first ih =>
      obtain ⟨row, readRow, read⟩ := bind_eq_ok.mp read
      obtain ⟨others, readOthers, read⟩ := bind_eq_ok.mp read
      cases read
      rw [cons_append, readKeyedRows, readRow]
      dsimp only [bind, Except.bind]
      rw [ih readOthers]
      rfl

theorem readKeyedRows_append_of_error
    {first : List KeyValue}
    (unread : readKeyedRows table first = .error error)
    (second : List KeyValue) :
    readKeyedRows table (first ++ second) = .error error := by
  induction first with
  | nil => cases unread
  | cons pair first ih =>
      rw [readKeyedRows] at unread
      rw [cons_append, readKeyedRows]
      cases readRow : readKeyedRow table pair with
      | error error' =>
          rw [readRow] at unread
          cases unread
          rfl
      | ok row =>
          rw [readRow] at unread
          dsimp only [bind, Except.bind] at unread ⊢
          cases readRest : readKeyedRows table first with
          | error error' =>
              rw [readRest] at unread
              cases unread
              rw [ih readRest]
          | ok rows =>
              rw [readRest] at unread
              cases unread

theorem readKeyedRows_append_error
    (read : readKeyedRows table first = .ok rows)
    (unread : readKeyedRows table second = .error error) :
    readKeyedRows table (first ++ second) = .error error := by
  induction first generalizing rows with
  | nil => exact unread
  | cons pair first ih =>
      obtain ⟨row, readRow, read⟩ := bind_eq_ok.mp read
      obtain ⟨others, readOthers, read⟩ := bind_eq_ok.mp read
      rw [cons_append, readKeyedRows, readRow]
      dsimp only [bind, Except.bind]
      rw [ih readOthers]

section

variable
  (read : readKeyedRows table pairs = .ok rows)

include read

theorem forall₂_of_readKeyedRows :
    List.Forall₂ (fun pair keyed => readKeyedRow table pair = .ok keyed)
      pairs rows := by
  induction pairs generalizing rows with
  | nil =>
      cases read
      exact .nil
  | cons pair pairs ih =>
      obtain ⟨row, readRow, read⟩ := bind_eq_ok.mp read
      obtain ⟨others, readOthers, read⟩ := bind_eq_ok.mp read
      cases read
      exact .cons readRow (ih readOthers)

theorem mem_of_readKeyedRows
    {keyed : KeyedRow} :
    keyed ∈ rows ↔ ∃ pair ∈ pairs, readKeyedRow table pair = .ok keyed := by
  induction pairs generalizing rows with
  | nil =>
      cases read
      simp
  | cons pair pairs ih =>
      obtain ⟨row, readRow, read⟩ := bind_eq_ok.mp read
      obtain ⟨others, readOthers, read⟩ := bind_eq_ok.mp read
      cases read
      rw [mem_cons, ih readOthers]
      simp [readRow, eq_comm]

theorem readable_of_readKeyedRows
    (member : pair ∈ pairs) :
    ∃ keyed, readKeyedRow table pair = .ok keyed := by
  induction pairs generalizing rows with
  | nil => cases member
  | cons first pairs ih =>
      obtain ⟨row, readRow, read⟩ := bind_eq_ok.mp read
      obtain ⟨others, readOthers, read⟩ := bind_eq_ok.mp read
      rcases mem_cons.mp member with rfl | inRest
      · exact ⟨row, readRow⟩
      · exact ih readOthers inRest

end

theorem exists_readKeyedRows
    (each : ∀ pair ∈ pairs, ∃ keyed, readKeyedRow table pair = .ok keyed) :
    ∃ rows, readKeyedRows table pairs = .ok rows := by
  induction pairs with
  | nil => exact ⟨[], rfl⟩
  | cons pair pairs ih =>
      obtain ⟨keyed, readRow⟩ := each pair (mem_cons_self ..)
      obtain ⟨rows, readRows⟩ := ih
        (fun other member => each other (mem_cons_of_mem _ member))
      refine ⟨keyed :: rows, ?_⟩
      rw [readKeyedRows, readRow]
      dsimp only [bind, Except.bind]
      rw [readRows]
      rfl

theorem key_of_readKeyedRow
    (read : readKeyedRow table pair = .ok keyed) :
    keyed.key = pair.key := by
  obtain ⟨_, _, read⟩ := bind_eq_ok.mp read
  obtain ⟨_, _, read⟩ := bind_eq_ok.mp read
  cases read
  rfl

variable [Platform]

/-! ## One batch -/

/-- What a build writes for a row that its index admits. -/
def backfillChange (table : TableDef) (index : IndexDef) (keyed : KeyedRow) : Change :=
  ((backfillEntry table index keyed).key, some (backfillEntry table index keyed).value)

/-- What a build writes for some rows. -/
def backfillChanges (table : TableDef) (index : IndexDef)
    (rows : List KeyedRow) : List Change :=
  (rows.filter (fun keyed => index.admits keyed.row)).map (backfillChange table index)

/-- The check that a build makes before it writes an entry. -/
def backfillCheck (table : TableDef) (index : IndexDef) (keyed : KeyedRow)
    (snapshot : Snapshot) : Except KernelError Unit :=
  if (backfillEntry table index keyed).enforcesUniqueness then
    RecordTransaction.checkUnique table index
      (backfillEntry table index keyed) keyed.primaryKey snapshot
  else
    .ok ()

/-- Why a build stops at one of some rows, if it does. -/
def backfillRefusal (table : TableDef) (index : IndexDef) :
    RecordState → List KeyedRow → Option KernelError
  | _, [] => none
  | state, keyed :: rest =>
      match backfillCheck table index keyed state.transaction with
      | .error error => some error
      | .ok _ =>
          backfillRefusal table index
            (state.changed [backfillChange table index keyed]) rest

theorem run_writeBackfillEntry_of_ok
    (passes : backfillCheck table index keyed state.transaction = .ok ()) :
    (writeBackfillEntry table index keyed).run state =
      (.ok (), state.changed [backfillChange table index keyed]) := by
  rw [backfillCheck] at passes
  rw [writeBackfillEntry]
  split at passes
  · next enforces =>
      rw [if_pos enforces, run_reading_bind_of_ok passes]
      exact run_put ..
  · next free =>
      rw [if_neg free]
      exact run_put ..

theorem run_writeBackfillEntry_of_error
    (refused : backfillCheck table index keyed state.transaction = .error error) :
    (writeBackfillEntry table index keyed).run state = (.error error, state) := by
  rw [backfillCheck] at refused
  rw [writeBackfillEntry]
  split at refused
  · next enforces => rw [if_pos enforces, run_reading_bind_of_error refused]
  · cases refused

theorem run_writeBackfillEntries_of_none
    (passes : backfillRefusal table index state rows = none) :
    (forEach (writeBackfillEntry table index) rows).run state =
      (.ok (), state.changed (rows.map (backfillChange table index))) := by
  induction rows generalizing state with
  | nil => rfl
  | cons keyed rows ih =>
      rw [backfillRefusal] at passes
      split at passes
      · cases passes
      · next checked =>
          rw [forEach, run_bind_of_ok (run_writeBackfillEntry_of_ok
            checked), ih passes, changed_changed]
          rfl

theorem run_writeBackfillEntries_of_some
    (refused : backfillRefusal table index state rows = some error) :
    ((forEach (writeBackfillEntry table index) rows).run state).1 = .error error := by
  induction rows generalizing state with
  | nil => cases refused
  | cons keyed rows ih =>
      rw [backfillRefusal] at refused
      split at refused
      · next checked =>
          cases refused
          rw [forEach, run_bind_of_error
            (run_writeBackfillEntry_of_error checked)]
      · next checked =>
          rw [forEach, run_bind_of_ok (run_writeBackfillEntry_of_ok checked)]
          exact ih refused

/-- The rows of a batch, unless it fails. -/
def batchRows (table : TableDef) (index : IndexDef)
    (pairs : List KeyValue) (store : Kv) :
    Except KernelError (List KeyedRow) := do
  let rows ← readKeyedRows table pairs
  match backfillRefusal table index (.begin store)
      (rows.filter (fun keyed => index.admits keyed.row)) with
  | some error => .error error
  | none => return rows

/-- A batch whose rows are read is carried out in one transaction. -/
theorem run_buildBatch_of_ok
    (succeeded : batchRows table index
      ((pairsAfter table after store).take BACKFILL_BATCH) store = .ok rows) :
    (transact (buildBatch table index after)).run store =
      (.ok ⟨rows.length, rows.getLast?.map KeyedRow.key,
          (rows.filter (fun keyed => index.admits keyed.row)).length⟩,
        [carryOut store (backfillChanges table index rows)]) := by
  obtain ⟨found, readRows, succeeded⟩ := bind_eq_ok.mp succeeded
  split at succeeded
  · cases succeeded
  · next passes =>
      cases succeeded
      have reads : readBatch table after (begin store).transaction = .ok rows := by
        rw [readBatch, scan_begin]
        exact readRows
      refine run_transact_of_ok ?_
      rw [buildBatch, run_reading_bind_of_ok reads,
        run_bind_of_ok (run_writeBackfillEntries_of_none passes)]
      rfl

/-- A batch that fails commits nothing. -/
theorem run_buildBatch_of_error
    (failed : batchRows table index
      ((pairsAfter table after store).take BACKFILL_BATCH) store = .error error) :
    (transact (buildBatch table index after)).run store = (.error error, []) := by
  refine run_transact_of_error ?_
  have reads : readBatch table after (begin store).transaction = readKeyedRows table
        ((pairsAfter table after store).take BACKFILL_BATCH) := by
    rw [readBatch, scan_begin, pairsAfter]
  rw [batchRows] at failed
  rw [buildBatch]
  cases readRows : readKeyedRows table
      ((pairsAfter table after store).take BACKFILL_BATCH) with
  | error unread =>
      rw [readRows] at failed reads
      cases failed
      rw [run_reading_bind_of_error reads]
  | ok rows =>
      rw [readRows] at failed reads
      rw [run_reading_bind_of_ok reads]
      dsimp only [bind, Except.bind] at failed
      split at failed
      · next refused =>
          cases failed
          have stopped := run_writeBackfillEntries_of_some refused
          cases ran : (forEach (writeBackfillEntry table index)
              (rows.filter (fun keyed => index.admits keyed.row))).run
                (.begin store) with
          | mk outcome after =>
              rw [ran] at stopped
              cases stopped
              rw [run_bind_of_error ran]
      · cases failed

/-! ## All batches -/

omit [Platform] in
theorem not_tablePrefix_of_ofIndex
    {id : IndexId} (ofIndex : OfIndex id key) :
    ¬tablePrefix table <+: key := by
  rintro ⟨bytes, same⟩
  obtain ⟨entry, rfl⟩ := ofIndex
  have sameSpace := (header_append_inj same).1
  exact absurd sameSpace (by decide)

theorem ofIndex_of_mem_backfillChanges
    {change : Change}
    (member : change ∈ backfillChanges table index rows) :
    OfIndex index.id change.1 := by
  obtain ⟨keyed, _, rfl⟩ := mem_map.mp member
  exact indexEntry_ofIndex ..

theorem getElem?_backfilled_of_not_ofIndex
    (other : ¬OfIndex index.id key)
    (table : TableDef) (store : Kv) (rows : List KeyedRow) :
    (carryOut store (backfillChanges table index rows))[key]? = store[key]? := by
  refine getElem?_carryOut_of_absent store ?_
  rintro change member rfl
  exact other (ofIndex_of_mem_backfillChanges member)

/-- How a build over some stored rows goes: its end, and what it commits. -/
inductive Backfills (table : TableDef) (index : IndexDef) :
    List KeyValue → Kv → Except KernelError Unit → List Kv → Prop where
  | refused {pairs : List KeyValue} {store : Kv} {error : KernelError}
      (failed : batchRows table index (pairs.take BACKFILL_BATCH) store =
        .error error) :
      Backfills table index pairs store (.error error) []
  | finished {pairs : List KeyValue} {store : Kv} {rows : List KeyedRow}
      (short : pairs.length < BACKFILL_BATCH)
      (succeeded : batchRows table index pairs store = .ok rows) :
      Backfills table index pairs store (.ok ())
        [Overlay.carryOut store (backfillChanges table index rows)]
  | resumed {pairs : List KeyValue} {store : Kv} {rows : List KeyedRow}
      {outcome : Except KernelError Unit}
      {committed : List Kv}
      (full : BACKFILL_BATCH ≤ pairs.length)
      (succeeded : batchRows table index (pairs.take BACKFILL_BATCH) store = .ok rows)
      (rest : Backfills table index (pairs.drop BACKFILL_BATCH)
        (Overlay.carryOut store (backfillChanges table index rows)) outcome
        committed) :
      Backfills table index pairs store outcome
        (Overlay.carryOut store (backfillChanges table index rows) :: committed)

theorem forall₂_of_batchRows
    (succeeded : batchRows table index pairs store = .ok rows) :
    List.Forall₂ (fun pair keyed => readKeyedRow table pair = .ok keyed)
      pairs rows := by
  obtain ⟨found, readRows, succeeded⟩ := bind_eq_ok.mp succeeded
  split at succeeded
  · cases succeeded
  · cases succeeded
    exact forall₂_of_readKeyedRows readRows

theorem lastKey_of_batchRows
    (succeeded : batchRows table index pairs store = .ok rows) :
    rows.getLast?.map KeyedRow.key = pairs.getLast?.map KeyValue.key := by
  have each := forall₂_of_batchRows succeeded
  have sameKeys : rows.map KeyedRow.key = pairs.map KeyValue.key := by
    clear succeeded
    induction each with
    | nil => rfl
    | cons read _ ih => rw [map_cons, map_cons, ih, key_of_readKeyedRow read]
  rw [← getLast?_map, ← getLast?_map, sameKeys]

omit [Platform] in
theorem resumed_of_full
    (full : BACKFILL_BATCH ≤ (pairsAfter table after store).length) :
    ∃ last, ((pairsAfter table after store).take BACKFILL_BATCH).getLast? = some last ∧
        pairsAfter table (some last.key) store =
          (pairsAfter table after store).drop BACKFILL_BATCH := by
  let batch := (pairsAfter table after store).take BACKFILL_BATCH
  have nonempty : batch ≠ [] := by
    intro nothing
    have noRows := congrArg length nothing
    rw [length_take, Nat.min_eq_left full] at noRows
    exact absurd noRows (by decide)
  refine ⟨batch.getLast nonempty, getLast?_eq_getLast_of_ne_nil nonempty, ?_⟩
  have parts : pairsAfter table after store =
      batch.dropLast ++ batch.getLast nonempty ::
        (pairsAfter table after store).drop BACKFILL_BATCH :=
    calc pairsAfter table after store
        = batch ++ (pairsAfter table after store).drop BACKFILL_BATCH :=
          (take_append_drop ..).symm
      _ = (batch.dropLast ++ [batch.getLast nonempty]) ++
            (pairsAfter table after store).drop BACKFILL_BATCH := by
          rw [dropLast_append_getLast]
      _ = batch.dropLast ++ batch.getLast nonempty ::
            (pairsAfter table after store).drop BACKFILL_BATCH := by
          simp
  exact pairsAfter_resumed parts

/-- A build works through what is stored under the keys of its table. -/
theorem backfills_buildFrom
    {fuel : Nat} (written : Nat)
    (enough : (pairsAfter table after store).length < fuel) :
    Backfills table index (pairsAfter table after store) store
      (((buildFrom table index fuel after written).run store).1.map (fun _ => ()))
      ((buildFrom table index fuel after written).run store).2 := by
  induction fuel generalizing after written store with
  | zero => omega
  | succ fuel ih =>
      rw [buildFrom]
      cases outcome : batchRows table index
          ((pairsAfter table after store).take BACKFILL_BATCH) store with
      | error error =>
          rw [run_bind_of_error (run_buildBatch_of_error outcome)]
          exact .refused outcome
      | ok rows =>
          rw [run_bind_of_ok (run_buildBatch_of_ok outcome)]
          have sameLength := (forall₂_of_batchRows outcome).length_eq
          rw [length_take] at sameLength
          by_cases short : (pairsAfter table after store).length < BACKFILL_BATCH
          · have isLast : rows.length < BACKFILL_BATCH := by omega
            rw [take_of_length_le (Nat.le_of_lt short)] at outcome
            rw [if_pos isLast]
            exact .finished short outcome
          · have goesOn : ¬rows.length < BACKFILL_BATCH := by omega
            obtain ⟨last, isLast, resumed⟩ := resumed_of_full (Nat.le_of_not_lt short)
            rw [if_neg goesOn, lastKey_of_batchRows outcome, isLast]
            have unchanged : pairsAfter table (some last.key) (carryOut store
                      (backfillChanges table index rows)) =
                  (pairsAfter table after store).drop BACKFILL_BATCH := by
              rw [← resumed]
              refine pairsAfter_congr _ (fun key ofTable => ?_)
              exact getElem?_backfilled_of_not_ofIndex
                (fun ofIndex => not_tablePrefix_of_ofIndex ofIndex ofTable) ..
            have fewer : (pairsAfter table (some last.key) (carryOut store
                    (backfillChanges table index rows))).length < fuel := by
              rw [unchanged, length_drop]
              have positive : 0 < BACKFILL_BATCH := by decide
              omega
            have rest := ih (written +
              (rows.filter (fun keyed => index.admits keyed.row)).length) fewer
            rw [unchanged] at rest
            exact .resumed (Nat.le_of_not_lt short) outcome rest

end Migration

end SlateOrm
