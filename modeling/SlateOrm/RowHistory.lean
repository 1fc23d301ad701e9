import SlateOrm.Lifetimes
import SlateOrm.RowConstraints

namespace SlateOrm

open RecordTransaction Write

/-!
# The history of rows

Every write of a record transaction makes its checks and then works through rows,
one at a time: it writes a row in the place of another, it removes one, or it
erases one outright.  These turns lead to the state that the write leaves, and
with the readings of the clock that they make they are a history of the rows.
-/

/-- What is done to one row. -/
inductive RowTurn where
  | write (table : TableDef) (row : Row) (previous : Option Row) (verifyUnique : Bool)
  | remove (table : TableDef) (row : Row)
  | erase (table : TableDef) (row : Row)

section

variable [Platform]

namespace RowTurn

/-- Carry out a turn. -/
def operation (records : RecordTransaction) : RowTurn → Write Unit
  | write table row previous verifyUnique =>
      records.writeRowWith table row previous verifyUnique
  | remove table row => records.removeRow table row
  | erase table row => RecordTransaction.eraseRow table row

/-- Carry out turns, one after the other. -/
def run (records : RecordTransaction) (turns : List RowTurn)
    (state : RecordState) : Except KernelError Unit × RecordState :=
  (Write.forEach (operation records) turns).run state

/-- The turns that follow a check, if it passes. -/
def ofCheck {α : Type} (checked : Except KernelError α)
    (turns : α → List RowTurn) : List RowTurn :=
  match checked with
  | .ok value => turns value
  | .error _ => []

end RowTurn

/-! ## The turns of a write -/

/-- A batch writes its rows in order, in the place of what it has read. -/
def RecordTransaction.bulkTurns (records : RecordTransaction)
    (context : SecurityContext) (table : TableDef) (rows : List Row)
    (mode : BulkMode) (snapshot : Snapshot) : List RowTurn :=
  RowTurn.ofCheck (records.checkMany context table rows mode snapshot)
    (fun existing => (rows.zip existing).map
      (fun pair => .write table pair.1 pair.2 false))

/-- The turns of a write of named rows. -/
def KeyedWrite.turns (records : RecordTransaction)
    (context : SecurityContext) (table : TableDef) (snapshot : Snapshot) :
    KeyedWrite → List RowTurn
  | insert row =>
      RowTurn.ofCheck (records.checkInsert context table row snapshot)
        (fun _ => [.write table row none true])
  | update row =>
      RowTurn.ofCheck (records.checkUpdate context table row snapshot)
        (fun existing => [.write table row (some existing) true])
  | upsert row =>
      RowTurn.ofCheck (records.checkUpsert context table row snapshot)
        (fun existing => [.write table row existing true])
  | updateIfUnchanged row expected =>
      RowTurn.ofCheck (records.checkUpdateIfUnchanged context table row expected
        snapshot) (fun existing => [.write table row (some existing) true])
  | insertMany rows => records.bulkTurns context table rows .insert snapshot
  | upsertMany rows => records.bulkTurns context table rows .upsert snapshot
  | updateMany rows => records.bulkTurns context table rows .update snapshot

namespace RecordTransaction

/-- The turns of a deletion. -/
def removeTurns (doomed : List (TableDef × Row)) : List RowTurn :=
  doomed.map (fun pair => .remove pair.1 pair.2)

/-- The turns of the deletions of rows that a predicate has found. -/
def deleteTurns (records : RecordTransaction) (context : SecurityContext)
    (table : TableDef) : List Row → RecordState → List RowTurn
  | [], _ => []
  | row :: rest, state =>
      RowTurn.ofCheck (records.deletionClosure context table row state.transaction)
        (fun doomed => removeTurns doomed ++ records.deleteTurns context table rest
            (RowTurn.run records (removeTurns doomed) state).2)

/-- The turns of the updates of rows that a predicate has found. -/
def updateTurns (table : TableDef) (assignments : List (Ordinal × Scalar))
    (matched : List Row) : List RowTurn :=
  matched.map (fun existing =>
    .write table (assigned assignments existing) (some existing) true)

/-- The turns of a purge. -/
def purgeTurns (records : RecordTransaction) (context : SecurityContext)
    (table : TableDef) (before : Int64) (atMost : Option Nat)
    (snapshot : Snapshot) : List RowTurn :=
  match table.softDelete with
  | none => []
  | some column =>
      let query : Query := {
        filter := .all [.isNull column true, .compare column .lt (.i64 before)]
        includeDeleted := true }
      RowTurn.ofCheck (do
        let cursor ← records.reads.execute snapshot context table query
        collectMatched atMost cursor) (List.map (.erase table))

end RecordTransaction

/-- The turns of a write. -/
def RecordWrite.turns (records : RecordTransaction)
    (context : SecurityContext) (table : TableDef) (state : RecordState) :
    RecordWrite → List RowTurn
  | keyed write => write.turns records context table state.transaction
  | predicate (.deleteWhere filter) atMost =>
      RowTurn.ofCheck (records.checkDeleteWhere context table filter atMost
        state.transaction)
        (fun matched => records.deleteTurns context table matched state)
  | predicate (.updateWhere filter assignments) atMost =>
      RowTurn.ofCheck (records.checkUpdateWhere context table filter assignments
        atMost state.transaction)
        (RecordTransaction.updateTurns table assignments)
  | delete primaryKey =>
      RowTurn.ofCheck (records.checkDelete context table primaryKey state.transaction)
        (fun found => RecordTransaction.removeTurns (found.getD []))
  | deleteIfUnchanged primaryKey expected =>
      RowTurn.ofCheck (records.checkDeleteIfUnchanged context table primaryKey
        expected state.transaction) RecordTransaction.removeTurns
  | purgeDeleted before atMost =>
      records.purgeTurns context table before atMost state.transaction

namespace RowTurn

theorem run_append_eq_ok
    {records : RecordTransaction} {first second : List RowTurn}
    {state after : RecordState} :
    run records (first ++ second) state = (.ok (), after) ↔
      ∃ between, run records first state = (.ok (), between) ∧
        run records second between = (.ok (), after) := by
  induction first generalizing state with
  | nil =>
      constructor
      · intro ran
        exact ⟨state, rfl, ran⟩
      · rintro ⟨between, isBetween, ran⟩
        cases isBetween
        exact ran
  | cons turn rest ih =>
      constructor
      · intro ran
        obtain ⟨_, next, first, ranRest⟩ := run_bind_eq_ok.mp ran
        obtain ⟨between, ranRest, ranSecond⟩ := ih.mp ranRest
        exact ⟨between, run_bind_eq_ok.mpr ⟨(), next, first, ranRest⟩, ranSecond⟩
      · rintro ⟨between, ranFirst, ranSecond⟩
        obtain ⟨_, next, first, ranRest⟩ := run_bind_eq_ok.mp ranFirst
        exact run_bind_eq_ok.mpr ⟨(), next, first, ih.mpr ⟨between, ranRest, ranSecond⟩⟩

omit [Platform] in
theorem forEach_map
    {α β : Type} (operation : β → Write Unit) (image : α → β)
    (values : List α) :
    forEach operation (values.map image) =
      forEach (fun value => operation (image value)) values := by
  induction values with
  | nil => rfl
  | cons value rest ih => rw [List.map_cons, forEach, forEach, ih]

theorem run_removeTurns
    (records : RecordTransaction) (doomed : List (TableDef × Row))
    (state : RecordState) :
    run records (removeTurns doomed) state = (records.removeRows doomed).run state := by
  rw [run, removeTurns, forEach_map]
  rfl

theorem run_singleton
    {records : RecordTransaction} {turn : RowTurn} {state after : RecordState}
    (ran : (turn.operation records).run state = (.ok (), after)) :
    run records [turn] state = (.ok (), after) :=
  run_bind_eq_ok.mpr ⟨(), after, ran, rfl⟩

end RowTurn

section

variable
  {records : RecordTransaction}
  {context : SecurityContext}
  {table : TableDef}
  {state after : RecordState}

theorem RecordTransaction.run_bulkTurns
    {rows : List Row} {mode : BulkMode}
    (ran : (records.writeMany context table rows mode).run state = (.ok (), after)) :
    RowTurn.run records (records.bulkTurns context table rows mode
      state.transaction) state = (.ok (), after) := by
  rw [writeMany] at ran
  rw [bulkTurns]
  split at ran
  · next isEmpty =>
      cases ran
      rw [List.isEmpty_iff.mp isEmpty]
      cases records.checkMany context table [] mode state.transaction with
      | error _
      | ok _ => rfl
  · obtain ⟨existing, checked, written⟩ := run_reading_bind_eq_ok.mp ran
    rw [checked, RowTurn.ofCheck, RowTurn.run, RowTurn.forEach_map]
    exact written

theorem KeyedWrite.run_turns
    {write : KeyedWrite}
    (ran : (write.operation records context table).run state = (.ok (), after)) :
    RowTurn.run records (write.turns records context table
      state.transaction) state = (.ok (), after) := by
  cases write with
  | insert row
  | update row
  | upsert row
  | updateIfUnchanged row expected =>
      obtain ⟨_, checked, written⟩ := run_reading_bind_eq_ok.mp ran
      rw [turns, checked]
      exact RowTurn.run_singleton written
  | insertMany rows
  | upsertMany rows
  | updateMany rows => exact run_bulkTurns ran

theorem RecordTransaction.run_deleteTurns
    {rows deleted : List Row}
    (ran : (collect (records.deleteMatched context table) rows).run
      state = (.ok deleted, after)) :
    RowTurn.run records (records.deleteTurns context table rows state)
      state = (.ok (), after) := by
  induction rows generalizing state deleted with
  | nil =>
      cases ran
      rfl
  | cons row rest ih =>
      obtain ⟨_, between, first, ran⟩ := run_bind_eq_ok.mp ran
      obtain ⟨_, _, ranRest, isAfter⟩ := run_bind_eq_ok.mp ran
      cases isAfter
      obtain ⟨doomed, closed, first⟩ := run_reading_bind_eq_ok.mp first
      obtain ⟨_, _, removed, isBetween⟩ := run_bind_eq_ok.mp first
      cases isBetween
      rw [← RowTurn.run_removeTurns] at removed
      rw [deleteTurns, closed, RowTurn.ofCheck, removed]
      exact RowTurn.run_append_eq_ok.mpr ⟨between, removed, ih ranRest⟩

theorem RecordTransaction.run_updateTurns
    {assignments : List (Ordinal × Scalar)} {rows updated : List Row}
    (ran : (collect (records.updateMatched context table assignments)
      rows).run state = (.ok updated, after)) :
    RowTurn.run records (updateTurns table assignments rows) state =
      (.ok (), after) := by
  induction rows generalizing state updated with
  | nil =>
      cases ran
      rfl
  | cons row rest ih =>
      obtain ⟨_, between, first, ran⟩ := run_bind_eq_ok.mp ran
      obtain ⟨_, _, ranRest, isAfter⟩ := run_bind_eq_ok.mp ran
      cases isAfter
      obtain ⟨_, _, first⟩ := run_reading_bind_eq_ok.mp first
      obtain ⟨_, _, written, isBetween⟩ := run_bind_eq_ok.mp first
      cases isBetween
      exact run_bind_eq_ok.mpr ⟨(), between, written, ih ranRest⟩

theorem RecordTransaction.run_purgeTurns
    {before : Int64} {atMost : Option Nat} {count : Nat}
    (ran : (records.purgeDeleted context table before atMost).run state =
      (.ok count, after)) :
    RowTurn.run records (records.purgeTurns context table before atMost
      state.transaction) state = (.ok (), after) := by
  rw [purgeDeleted] at ran
  split at ran
  · cases ran
  · next retires =>
      obtain ⟨_, between, authorized, ran⟩ := run_bind_eq_ok.mp ran
      rw [run_lift] at authorized
      obtain rfl : state = between := congrArg Prod.snd authorized
      obtain ⟨rows, found, ran⟩ := run_reading_bind_eq_ok.mp ran
      obtain ⟨_, _, erased, isAfter⟩ := run_bind_eq_ok.mp ran
      cases isAfter
      rw [purgeTurns, retires]
      dsimp only
      rw [found, RowTurn.ofCheck, RowTurn.run, RowTurn.forEach_map]
      exact erased

/-- Every write that succeeds is carried out row by row. -/
theorem RecordWrite.run_turns
    {write : RecordWrite}
    (ran : (write.operation records context table).run state = (.ok (), after)) :
    RowTurn.run records (write.turns records context table state) state =
      (.ok (), after) := by
  cases write with
  | keyed write => exact KeyedWrite.run_turns ran
  | predicate write atMost =>
      obtain ⟨_, _, ran, isAfter⟩ := run_bind_eq_ok.mp ran
      cases isAfter
      cases write with
      | deleteWhere filter =>
          obtain ⟨rows, checked, collected⟩ := run_reading_bind_eq_ok.mp ran
          rw [turns, checked]
          exact run_deleteTurns collected
      | updateWhere filter assignments =>
          obtain ⟨rows, checked, collected⟩ := run_reading_bind_eq_ok.mp ran
          rw [turns, checked]
          exact run_updateTurns collected
  | delete primaryKey =>
      obtain ⟨_, _, ran, isAfter⟩ := run_bind_eq_ok.mp ran
      cases isAfter
      obtain ⟨found, checked, removed⟩ := run_reading_bind_eq_ok.mp ran
      rw [turns, checked, RowTurn.ofCheck]
      cases found with
      | none =>
          cases removed
          rfl
      | some doomed =>
          obtain ⟨_, _, removed, isAfter⟩ := run_bind_eq_ok.mp removed
          cases isAfter
          rw [Option.getD_some, RowTurn.run_removeTurns]
          exact removed
  | deleteIfUnchanged primaryKey expected =>
      obtain ⟨doomed, checked, removed⟩ := run_reading_bind_eq_ok.mp ran
      rw [turns, checked, RowTurn.ofCheck, RowTurn.run_removeTurns]
      exact removed
  | purgeDeleted before atMost =>
      obtain ⟨_, _, ran, isAfter⟩ := run_bind_eq_ok.mp ran
      cases isAfter
      exact run_purgeTurns ran

end

/-! ## Events -/

namespace RowTurn

/-- The table that a turn is about. -/
def table : RowTurn → TableDef
  | write table _ _ _ => table
  | remove table _ => table
  | erase table _ => table

/-- The key of the row that a turn is about. -/
def key : RowTurn → Bytes
  | write table row _ _ => Keys.rowKey table (row.primaryKeyValues table)
  | remove table row => Keys.rowKey table (row.primaryKeyValues table)
  | erase table row => Keys.rowKey table (row.primaryKeyValues table)

/--
What a turn does to its row, at the reading of the clock that stamps it.  A row
that is retired is stamped after the moment of its retirement has been read.
-/
def event (records : RecordTransaction) (state : RecordState)
    (turn : RowTurn) : LifeEvent Bytes Int64 :=
  match turn with
  | write _ _ _ _ => .wrote turn.key (records.clock state.readings)
  | remove table _ =>
      match table.softDelete with
      | some _ => .wrote turn.key (records.clock (state.readings + 1))
      | none => .erased turn.key
  | erase _ _ => .erased turn.key

/-- What turns do to rows, one after the other. -/
def events (records : RecordTransaction) :
    List RowTurn → RecordState → List (LifeEvent Bytes Int64)
  | [], _ => []
  | turn :: rest, state =>
      turn.event records state ::
        events records rest ((turn.operation records).run state).2

theorem events_append
    {records : RecordTransaction} {first : List RowTurn}
    {state between : RecordState}
    (ran : run records first state = (.ok (), between))
    (second : List RowTurn) :
    events records (first ++ second) state =
      events records first state ++ events records second between := by
  induction first generalizing state with
  | nil =>
      cases ran
      rfl
  | cons turn rest ih =>
      obtain ⟨_, next, first, ranRest⟩ := run_bind_eq_ok.mp ran
      have isNext : ((turn.operation records).run state).2 = next := by
        rw [first]
      rw [List.cons_append, events, events, isNext, ih ranRest, List.cons_append]

end RowTurn

/-- What a call does to rows. -/
def Call.events (state : RecordState) : Call → List (LifeEvent Bytes Int64)
  | write records context table asked =>
      RowTurn.events records (asked.turns records context table state) state
  | commit => []

/-- What calls do to rows, one after the other. -/
def Call.history : RecordState → List Call → List (LifeEvent Bytes Int64)
  | _, [] => []
  | state, call :: rest =>
      call.events state ++
        ((call.step state).map (fun after => history after rest)).getD []

end

end SlateOrm
