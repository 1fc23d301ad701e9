import SlateOrm.LabelledRun
import SlateOrm.MemoryStoreIsolation
import SlateOrm.PredicateAtomicity

namespace SlateOrm

/-!
# Interleaved record transactions

A record transaction reads its own view and buffers its own writes, so one of
its operations is one step of the store's state whatever other transactions do
meanwhile.  Every operation only buffers changes.  Hence a run of record
transactions is a run of the store: each operation is the puts and deletes it
buffers, and what is known of the store's runs is known of these.
-/

/-! ## Operations that only buffer changes -/

namespace Write

variable {α β : Type}

/-- Whatever an operation answers, it has buffered changes and done no more. -/
structure Buffers (operation : Write α) : Prop where
  changes : ∀ state, ∃ changes, (operation.run state).2.transaction =
      (state.changed changes).transaction

namespace Buffers

/-- A value buffers nothing. -/
theorem pure (value : α) : Buffers (pure value : Write α) :=
  ⟨fun _ => ⟨[], rfl⟩⟩

/-- An outcome that is known buffers nothing. -/
theorem lift (outcome : Except KernelError α) : Buffers (lift outcome) :=
  ⟨fun _ => ⟨[], rfl⟩⟩

/-- A read buffers nothing. -/
theorem reading (read : Snapshot → Except KernelError α) :
    Buffers (reading read) :=
  ⟨fun _ => ⟨[], rfl⟩⟩

theorem refuse (error : KernelError) : Buffers (refuse error : Write α) :=
  lift _

/-- A put buffers one value. -/
theorem put (key value : Bytes) : Buffers (put key value) :=
  ⟨fun _ => ⟨[(key, some value)], rfl⟩⟩

/-- A delete buffers one removal. -/
theorem delete (key : Bytes) : Buffers (delete key) :=
  ⟨fun _ => ⟨[(key, none)], rfl⟩⟩

/-- What follows an operation adds to what the operation buffers. -/
theorem bind
    {first : Write α} {next : α → Write β} (firstBuffers : Buffers first)
    (nextBuffers : ∀ value, Buffers (next value)) :
    Buffers (first >>= next) := by
  refine ⟨fun state => ?_⟩
  obtain ⟨changes, buffered⟩ := firstBuffers.changes state
  rw [run_bind]
  cases ran : first.run state with
  | mk outcome between =>
      rw [ran] at buffered
      cases outcome with
      | error error => exact ⟨changes, buffered⟩
      | ok value =>
          obtain ⟨more, bufferedMore⟩ := (nextBuffers value).changes between
          refine ⟨changes ++ more, bufferedMore.trans ?_⟩
          rw [← RecordState.changed_changed]
          simp only [RecordState.changed] at buffered ⊢
          rw [buffered]

/-- A loop buffers what its rounds do. -/
theorem forEach
    {operation : α → Write Unit}
    (buffers : ∀ value, Buffers (operation value))
    (values : List α) :
    Buffers (forEach operation values) := by
  induction values with
  | nil => exact pure ()
  | cons value rest ih => exact bind (buffers value) (fun _ => ih)

/-- A loop that keeps its answers buffers what its rounds do. -/
theorem collect
    {operation : α → Write β}
    (buffers : ∀ value, Buffers (operation value))
    (values : List α) :
    Buffers (collect operation values) := by
  induction values with
  | nil => exact pure []
  | cons value rest ih =>
      exact bind (buffers value) (fun _ => bind ih (fun _ => pure _))

end Buffers

end Write

namespace RecordTransaction

open Write

variable [Platform]

/-- The entries of an index are removed and put one by one. -/
theorem buffers_writeIndex
    (table : TableDef) (row : Row) (previous : Option Row) (verifyUnique : Bool)
    (index : IndexDef) :
    Buffers (writeIndex table row previous verifyUnique index) := by
  refine Buffers.bind (Buffers.forEach (fun old => ?_) _)
    (fun _ => Buffers.forEach (fun new => ?_) _)
  · split
    · exact Buffers.pure ()
    · exact Buffers.delete _
  · split
    · exact Buffers.pure ()
    · split
      · exact Buffers.bind (Buffers.reading _) (fun _ => Buffers.put _ _)
      · exact Buffers.bind (Buffers.pure ()) (fun _ => Buffers.put _ _)

omit [Platform] in
theorem buffers_now (records : RecordTransaction) : Buffers records.now :=
  ⟨fun _ => ⟨[], rfl⟩⟩

/-- A row is stamped before its entries and itself are put. -/
theorem buffers_writeRowWith
    (records : RecordTransaction) (table : TableDef) (row : Row)
    (previous : Option Row) (verifyUnique : Bool) :
    Buffers (records.writeRowWith table row previous verifyUnique) := by
  refine Buffers.bind ?_ (fun row => Buffers.bind (Buffers.forEach
    (buffers_writeIndex table row previous verifyUnique) _) (fun _ => Buffers.put _ _))
  rw [stamp]
  split
  · exact Buffers.bind records.buffers_now (fun _ => Buffers.pure _)
  · exact Buffers.pure row

theorem buffers_writeRow
    (records : RecordTransaction) (table : TableDef) (row : Row)
    (previous : Option Row) :
    Buffers (records.writeRow table row previous) :=
  records.buffers_writeRowWith table row previous true

/-- Rows that are checked together are put one after another. -/
theorem buffers_writeMany
    (records : RecordTransaction) (context : SecurityContext) (table : TableDef)
    (rows : List Row) (mode : BulkMode) :
    Buffers (records.writeMany context table rows mode) := by
  rw [writeMany]
  split
  · exact Buffers.pure ()
  · exact Buffers.bind (Buffers.reading _) (fun _ =>
      Buffers.forEach (fun _ => records.buffers_writeRowWith ..) _)

/-- The entries of a row are removed, and then the row. -/
theorem buffers_eraseRow
    (table : TableDef) (row : Row) :
    Buffers (eraseRow table row) :=
  Buffers.bind
    (Buffers.forEach (fun _ => Buffers.forEach (fun _ => Buffers.delete _) _) _)
    (fun _ => Buffers.delete _)

section

variable
  (records : RecordTransaction) (context : SecurityContext) (table : TableDef)

include records

/-- A row is erased, or written again as a retired one. -/
theorem buffers_removeRow
    (row : Row) :
    Buffers (records.removeRow table row) := by
  rw [removeRow]
  split
  · exact buffers_eraseRow table row
  · refine Buffers.bind records.buffers_now (fun _ => ?_)
    split
    · exact records.buffers_writeRowWith ..
    · exact Buffers.refuse _

theorem buffers_removeRows
    (doomed : List (TableDef × Row)) :
    Buffers (records.removeRows doomed) :=
  Buffers.forEach (fun _ => records.buffers_removeRow ..) doomed

theorem buffers_updateIfUnchanged
    (row expected : Row) :
    Buffers (records.updateIfUnchanged context table row expected) :=
  Buffers.bind (Buffers.reading _) (fun _ => records.buffers_writeRow ..)

/-- A row that is not there is not removed. -/
theorem buffers_delete
    (primaryKey : List Value) :
    Buffers (records.delete context table primaryKey) := by
  refine Buffers.bind (Buffers.reading _) (fun found => ?_)
  cases found with
  | none => exact Buffers.pure false
  | some doomed =>
      exact Buffers.bind (records.buffers_removeRows doomed)
        (fun _ => Buffers.pure true)

theorem buffers_deleteIfUnchanged
    (primaryKey : List Value)
    (expected : Row) :
    Buffers (records.deleteIfUnchanged context table primaryKey expected) :=
  Buffers.bind (Buffers.reading _) records.buffers_removeRows

/-- Each row that a predicate finds is removed with its closure. -/
theorem buffers_deleteWhere
    (predicate : Expr)
    (atMost : Option Nat) :
    Buffers (records.deleteWhere context table predicate atMost) :=
  Buffers.bind (Buffers.reading _) (fun _ =>
    Buffers.collect (fun _ =>
      Buffers.bind (Buffers.reading _) (fun doomed =>
        Buffers.bind (records.buffers_removeRows doomed) (fun _ => Buffers.pure _))) _)

/-- Each row that a predicate finds is written again. -/
theorem buffers_updateWhere
    (predicate : Expr)
    (assignments : List (Ordinal × Scalar)) (atMost : Option Nat) :
    Buffers (records.updateWhere context table predicate assignments atMost) :=
  Buffers.bind (Buffers.reading _) (fun _ =>
    Buffers.collect (fun _ =>
      Buffers.bind (Buffers.reading _) (fun _ =>
        Buffers.bind (records.buffers_writeRow ..) (fun _ => Buffers.pure _))) _)

/-- Each row that a purge finds is erased. -/
theorem buffers_purgeDeleted
    (before : Int64)
    (atMost : Option Nat) :
    Buffers (records.purgeDeleted context table before atMost) := by
  rw [purgeDeleted]
  split
  · exact Buffers.refuse _
  · exact Buffers.bind (Buffers.lift _) (fun _ => Buffers.bind
      (Buffers.reading _) (fun _ => Buffers.bind
      (Buffers.forEach (buffers_eraseRow table) _) (fun _ => Buffers.pure _)))

end

end RecordTransaction

/-! ## The writes of a record transaction -/

/-- A write that a record transaction can be asked for. -/
inductive RecordWrite where
  | keyed (write : KeyedWrite)
  | predicate (write : PredicateWrite) (atMost : Option Nat)
  | delete (primaryKey : List Value)
  | deleteIfUnchanged (primaryKey : List Value) (expected : Row)
  | purgeDeleted (before : Int64) (atMost : Option Nat)

namespace RecordWrite

open Write

variable [Platform]

/-- Carry out a write, whatever it returns. -/
def operation (records : RecordTransaction) (context : SecurityContext)
    (table : TableDef) : RecordWrite → Write Unit
  | keyed write => write.operation records context table
  | predicate write atMost => do
      let _ ← write.operation records context table atMost
      return ()
  | delete primaryKey => do
      let _ ← records.delete context table primaryKey
      return ()
  | deleteIfUnchanged primaryKey expected =>
      records.deleteIfUnchanged context table primaryKey expected
  | purgeDeleted before atMost => do
      let _ ← records.purgeDeleted context table before atMost
      return ()

/-- Every write of a record transaction only buffers changes. -/
theorem buffers
    (records : RecordTransaction) (context : SecurityContext) (table : TableDef)
    (write : RecordWrite) :
    Buffers (write.operation records context table) := by
  cases write with
  | keyed write =>
      cases write with
      | insert row
      | update row
      | upsert row =>
          exact Buffers.bind (Buffers.reading _) (fun _ => records.buffers_writeRow ..)
      | updateIfUnchanged row expected => exact records.buffers_updateIfUnchanged ..
      | insertMany rows
      | upsertMany rows
      | updateMany rows => exact records.buffers_writeMany ..
  | predicate write atMost =>
      refine Buffers.bind ?_ (fun _ => Buffers.pure ())
      cases write with
      | deleteWhere filter => exact records.buffers_deleteWhere ..
      | updateWhere filter assignments => exact records.buffers_updateWhere ..
  | delete primaryKey =>
      exact Buffers.bind (records.buffers_delete ..) (fun _ => Buffers.pure ())
  | deleteIfUnchanged primaryKey expected => exact records.buffers_deleteIfUnchanged ..
  | purgeDeleted before atMost =>
      exact Buffers.bind (records.buffers_purgeDeleted ..) (fun _ => Buffers.pure ())

end RecordWrite

/-! ## Runs of record transactions -/

namespace MemoryStore

variable {state : State} {session : Session}

namespace State

theorem replace_replace
    (state : State) {first second : Session}
    (sameId : first.id = second.id) :
    (state.replace first).replace second = state.replace second := by
  simp only [replace, List.map_map, State.mk.injEq, true_and]
  refine List.map_congr_left (fun other _ => ?_)
  simp only [Function.comp_apply]
  by_cases replaced : other.id = first.id
  · simp [replaced, sameId]
  · simp [replaced, ← sameId]

theorem live?_replace
    {after : Session}
    (found : state.live? session.id = some session)
    (sameId : after.id = session.id)
    (live : after.live) :
    (state.replace after).live? session.id = some after := by
  obtain ⟨shared, sessions⟩ := state
  simp only [replace, live?] at found ⊢
  induction sessions with
  | nil => cases found
  | cons other rest ih =>
      rw [List.map_cons]
      by_cases same : other.id = after.id
      · rw [if_pos same, List.find?_cons_of_pos (by simp [sameId, live])]
      · have different : other.id ≠ session.id := by
          rwa [← sameId]
        rw [List.find?_cons_of_neg (by simp [different])] at found
        rw [if_neg same, List.find?_cons_of_neg (by simp [different])]
        exact ih found

theorem replace_self
    (distinct : (state.sessions.map Session.id).Nodup)
    (member : session ∈ state.sessions) :
    state.replace session = state := by
  obtain ⟨shared, sessions⟩ := state
  simp only [replace, State.mk.injEq, true_and]
  have each : ∀ other ∈ sessions,
      (if other.id = session.id then session else other) = id other := by
    intro other inSessions
    split
    · next sameId => exact (eq_of_id_eq distinct inSessions member sameId).symm
    · rfl
  rw [List.map_congr_left each, List.map_id]

end State

/-- A transaction under its handle, with changes buffered. -/
def Session.buffered (session : Session) (changes : List Change) : Session :=
  { session with
    transaction := { session.transaction with
      pending := Overlay.buffer session.transaction.pending changes } }

/-- Buffering changes is making the store's calls for them. -/
theorem exists_run_buffered
    {trace : Trace} (run : Run trace state)
    (found : state.live? session.id = some session)
    (changes : List Change) :
    ∃ longer, Run longer (state.replace (session.buffered changes)) := by
  obtain ⟨member, -, live⟩ := State.of_live? found
  induction changes generalizing trace state session with
  | nil =>
      have same := State.replace_self run.invariant.distinct member
      exact ⟨trace, same.symm ▸ run⟩
  | cons change changes ih =>
      obtain ⟨key, written⟩ := change
      have foundAgain := State.live?_replace found
          (rfl : (session.buffered [(key, written)]).id = session.id) live
      have steps : ∃ action, step state action =
          some (state.replace (session.buffered [(key, written)]), .done) := by
        cases written with
        | none => exact ⟨.delete session.id key, by simp only [step, found]; rfl⟩
        | some value =>
            exact ⟨.put session.id key value, by simp only [step, found]; rfl⟩
      obtain ⟨action, stepped⟩ := steps
      obtain ⟨memberAgain, -, liveAgain⟩ := State.of_live? foundAgain
      obtain ⟨longer, after⟩ := ih (run.step stepped) foundAgain memberAgain liveAgain
      have sameId : (session.buffered [(key, written)]).id =
          ((session.buffered [(key, written)]).buffered changes).id :=
        rfl
      rw [State.replace_replace _ sameId] at after
      exact ⟨longer, after⟩

end MemoryStore

namespace RecordMachine

variable [Platform]

/-- A step of interleaved record transactions. -/
inductive Event where
  /-- A call on the store or on one of its transactions. -/
  | store (action : MemoryStore.Action)
  /-- A write of a record transaction. -/
  | write (id : Nat) (records : RecordTransaction)
      (context : SecurityContext) (table : TableDef) (write : RecordWrite)

/-- Carry out a write in a transaction. -/
def runWrite (transaction : MemoryStore.Transaction)
    (records : RecordTransaction) (context : SecurityContext)
    (table : TableDef) (write : RecordWrite) :
    Except KernelError Unit × RecordState :=
  (write.operation records context table).run ⟨transaction, 0⟩

/-- Take one step; what a transaction has buffered stays buffered. -/
def step (state : MemoryStore.State) : Event → Option MemoryStore.State
  | .store action => (MemoryStore.step state action).map Prod.fst
  | .write id records context table write => do
      let session ← state.live? id
      let (_, after) := runWrite session.transaction records context table write
      return state.replace { session with transaction := after.transaction }

section

variable
  {state next : MemoryStore.State}
  {id : Nat}
  {records : RecordTransaction}
  {context : SecurityContext}
  {table : TableDef}
  {write : RecordWrite}
  (stepped : step state (.write id records context table write) = some next)

include stepped

theorem step_write :
    ∃ session, state.live? id = some session ∧
        next = state.replace { session with
          transaction := (runWrite session.transaction records context table
              write).2.transaction } := by
  obtain ⟨session, found, replaced⟩ := Option.bind_eq_some_iff.mp stepped
  exact ⟨session, found, (Option.some.inj replaced).symm⟩

theorem exists_buffered_of_step :
    ∃ session changes, state.live? id = some session ∧
        next = state.replace (session.buffered changes) := by
  obtain ⟨session, found, rfl⟩ := step_write stepped
  obtain ⟨changes, buffered⟩ :=
    (write.buffers records context table).changes ⟨session.transaction, 0⟩
  refine ⟨session, changes, found, ?_⟩
  rw [runWrite, buffered]
  rfl

end

theorem exists_run_of_step
    {trace : MemoryStore.Trace} {state next : MemoryStore.State} {event : Event}
    (run : MemoryStore.Run trace state)
    (stepped : step state event = some next) :
    ∃ longer, MemoryStore.Run longer next := by
  cases event with
  | store action =>
      obtain ⟨⟨next, response⟩, answered, rfl⟩ := Option.map_eq_some_iff.mp stepped
      exact ⟨_, run.step answered⟩
  | write id records context table write =>
      obtain ⟨session, changes, found, rfl⟩ := exists_buffered_of_step stepped
      obtain ⟨_, rfl, _⟩ := MemoryStore.State.of_live? found
      exact MemoryStore.exists_run_buffered run found changes

theorem exists_run
    {events : List Event} {state : MemoryStore.State}
    (run : LabelledRun step .new events state) :
    ∃ trace, MemoryStore.Run trace state := by
  refine run.invariant (fun state => ∃ trace, MemoryStore.Run trace state) ?_ ⟨[], .new⟩
  rintro before event after stepped ⟨trace, traced⟩
  exact exists_run_of_step traced stepped

end RecordMachine

end SlateOrm
