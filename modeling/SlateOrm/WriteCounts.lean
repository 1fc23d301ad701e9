import SlateOrm.IndexConsistency
import SlateOrm.StatementProgress

namespace SlateOrm

open List Write

/-!
# What a session reports it has written

A statement comes to writes of single rows, one after the other, until one of
them is refused; the rows whose write went through are in the transaction's
buffer, and a commit lands them.  The tally of a session counts them, with one
exception: a predicate write that is refused counts none, though the rows before
the refused one were written.  So a session that commits reports what has landed
exactly when each of its refused predicate writes was refused at its first row.
A session that does not commit reports nothing.
-/

/-! ## Loops that stop at a refusal -/

namespace Write

variable {α β γ : Type}

theorem untilRefused_map
    (operation : α → Write β) (values : List α) (state : RecordState) :
    untilRefused id (values.map operation) state =
      untilRefused operation values state := by
  induction values generalizing state with
  | nil => rfl
  | cons value rest ih => simp only [map_cons, untilRefused, id, ih]

theorem untilRefused_bind
    (operation : α → Write β) (next : β → γ) (values : List α)
    (state : RecordState) :
    untilRefused (fun value => do
          let result ← operation value
          return next result) values state =
      let stopped := untilRefused operation values state
      { outcome := stopped.outcome
        results := stopped.results.map next
        state := stopped.state } := by
  induction values generalizing state with
  | nil => rfl
  | cons value rest ih =>
      simp only [untilRefused, run_bind, ih]
      cases (operation value).run state with
      | mk outcome between => cases outcome <;> rfl

theorem untilRefused_each
    (write : α → Write β) (values : List α) (state : RecordState) :
    untilRefused id (values.map (fun value => do
          let _ ← write value
          return true)) state =
      let stopped := untilRefused write values state
      { outcome := stopped.outcome
        results := replicate stopped.results.length true
        state := stopped.state } := by
  rw [untilRefused_map]
  refine (untilRefused_bind write (fun _ => true) values state).trans ?_
  simp [map_const']

theorem length_of_untilRefused
    {operation : α → Write β} {values : List α} {state : RecordState}
    {result : Unit}
    (finished : (untilRefused operation values state).outcome = .ok result) :
    (untilRefused operation values state).results.length =
      values.length := by
  induction values generalizing state with
  | nil => rfl
  | cons value rest ih =>
      simp only [untilRefused] at finished ⊢
      cases ran : (operation value).run state with
      | mk outcome between =>
          rw [ran] at finished
          cases outcome with
          | error error => cases finished
          | ok answer => exact congrArg Nat.succ (ih finished)

theorem untilRefused_outcome
    {operation : α → Write Unit}
    (never : ∀ value state, ∃ after, (operation value).run state = (.ok (), after))
    (values : List α) (state : RecordState) :
    (untilRefused operation values state).outcome = .ok () := by
  obtain ⟨after, ran⟩ :=
    run_forEach_ok (fun value (_ : value ∈ values) => never value) state
  rw [run_forEach_eq] at ran
  exact congrArg Prod.fst ran

end Write

/-! ## The rows of a statement -/

/-- The writes that a statement comes to, if it passes its checks. -/
def Write.unlessRefused {α : Type} (checked : Except KernelError α)
    (writes : α → List (Write Bool)) : List (Write Bool) :=
  match checked with
  | .error _ => []
  | .ok found => writes found

section

variable [Platform]

section

variable
  (records : RecordTransaction) (context : SecurityContext) (table : TableDef)

/-- The writes of rows that are checked together. -/
def RecordTransaction.bulkWrites (mode : BulkMode) (rows : List Row)
    (snapshot : Snapshot) : List (Write Bool) :=
  Write.unlessRefused (records.checkMany context table rows mode snapshot)
    (fun existing =>
      (rows.zip existing).map (fun pair => do
        records.writeRowWith table pair.1 pair.2 false
        return true))

/-- The writes of the rows that a predicate finds. -/
def PredicateWrite.rowWrites (atMost : Option Nat) (write : PredicateWrite)
    (snapshot : Snapshot) : List (Write Bool) :=
  Write.unlessRefused (write.matched records context table atMost snapshot) (fun rows =>
      rows.map (fun row => do
        let _ ← write.ofRow records context table row
        return true))

end

namespace Statement

/--
The writes of single rows that a statement comes to when it passes the checks it
makes of all of them; each tells whether there was such a row.
-/
def rowWrites (records : RecordTransaction) (context : SecurityContext)
    (table : TableDef) (snapshot : Snapshot) :
    Statement → List (Write Bool)
  | insert rows upsert =>
      records.bulkWrites context table (if upsert then .upsert else .insert)
        rows snapshot
  | update rows expected _ =>
      if expected.isEmpty then
        records.bulkWrites context table .update rows snapshot
      else
        (rows.zip expected).map (fun pair => do
          records.updateIfUnchanged context table pair.1 pair.2
          return true)
  | delete keys expected _ =>
      if expected.isEmpty then
        keys.map (records.delete context table)
      else
        (keys.zip expected).map (fun pair => do
          records.deleteIfUnchanged context table pair.1 pair.2
          return true)
  | purgeDeleted before atMost =>
      Write.unlessRefused (records.checkPurge context table before atMost snapshot)
        (fun doomed =>
          doomed.map (fun row => do
            RecordTransaction.eraseRow table row
            return true))
  | deleteWhere predicate atMost =>
      (PredicateWrite.deleteWhere predicate).rowWrites records context table
        atMost snapshot
  | updateWhere predicate assignments atMost =>
      (PredicateWrite.updateWhere predicate assignments).rowWrites records
        context table atMost snapshot

section

variable
  (records : RecordTransaction) (context : SecurityContext) (table : TableDef) (statement : Statement)

/-- How a statement goes through its rows. -/
def stopped (state : RecordState) : Stopped Bool :=
  Write.untilRefused id
    (statement.rowWrites records context table state.transaction) state

/-- How many rows a statement puts in, changes or removes by itself. -/
def landed (state : RecordState) : Nat :=
  (statement.stopped records context table state).results.count true

/-- Whether a statement is about the rows that a predicate finds. -/
def isPredicateWrite : Statement → Bool
  | deleteWhere .. | updateWhere .. => true
  | _ => false

/-- How many rows of a predicate write landed before one was refused. -/
def uncounted (state : RecordState) : Nat :=
  let stopped := statement.stopped records context table state
  if statement.isPredicateWrite && !stopped.outcome.isOk then
    stopped.results.count true
  else
    0

end

end Statement

/-! ## What a session counts for a statement -/

/-- A statement went through its rows as they were written one by one. -/
structure Applied.Follows (ended : Applied) (stopped : Stopped Bool) :
    Prop where
  state : ended.state = stopped.state
  applied : ended.applied = stopped.results.count true

omit [Platform] in
/-- A statement that cannot fail once it has passed its checks. -/
theorem Applied.follows_whole
    {α β γ : Type} {operation : Write γ} {written : γ → Written}
    {state : RecordState} {check : Snapshot → Except KernelError β}
    {rows : β → List α} {write : α → Write Unit} {result : β → γ}
    (ran : operation.run state = ((do
        let found ← reading check
        forEach write (rows found)
        return result found) : Write γ).run state)
    (never : ∀ value between, ∃ after, (write value).run between = (.ok (), after))
    (counts : ∀ found, check state.transaction = .ok found →
      (written (result found)).affected = (rows found).length) :
    (Applied.whole operation written state).Follows (untilRefused id
        (unlessRefused (check state.transaction)
          (fun found => (rows found).map (fun value => do
            write value
            return true))) state) := by
  cases checked : check state.transaction with
  | error error =>
      rw [run_reading_bind_of_error checked] at ran
      constructor
      · rw [whole, ran]
        rfl
      · rw [whole, ran]
        rfl
  | ok found =>
      have finished := untilRefused_outcome never (rows found) state
      have length := length_of_untilRefused finished
      rw [run_reading_bind_of_ok checked, run_bind, run_forEach_eq, finished] at ran
      simp only [unlessRefused, untilRefused_each]
      constructor
      · rw [whole, ran]
        rfl
      · rw [whole, ran]
        simp only [run_pure, counts found checked, ← length, count_replicate_self]

section

variable
  (records : RecordTransaction)
  (context : SecurityContext)
  (table : TableDef)

include records context table

/-- Rows that are checked together are counted when all are written. -/
theorem RecordTransaction.follows_writeMany
    (mode : BulkMode) (rows : List Row) (state : RecordState) :
    (Applied.whole (records.writeMany context table rows mode)
      (fun _ => .counted rows.length) state).Follows
      (untilRefused id (records.bulkWrites context table mode rows state.transaction)
        state) := by
  cases isEmpty : rows.isEmpty with
  | true =>
      have isNil := isEmpty_iff.mp isEmpty
      subst isNil
      have nothing :
          records.bulkWrites context table mode [] state.transaction = [] := by
        simp only [bulkWrites, unlessRefused]
        split
        · rfl
        · rfl
      rw [nothing]
      exact ⟨rfl, rfl⟩
  | false =>
      have notEmpty : ¬rows.isEmpty = true := by simp [isEmpty]
      have ran : (records.writeMany context table rows mode).run state = ((do
              let existing ← reading (records.checkMany context table rows mode)
              forEach (fun pair =>
                records.writeRowWith table pair.1 pair.2 false)
                (rows.zip existing)
              return () : Write Unit)).run state := by
        rw [writeMany, if_neg notEmpty]
        simp only [run_bind]
        split
        · split
          · next written => exact written
          · next refused => exact refused
        · rfl
      refine Applied.follows_whole ran (fun pair between =>
        ⟨_, run_writeRowWith_unverified records table pair.1 pair.2 between⟩)
        (fun existing checked => ?_)
      have width := (readRows_spec (checked_of_checkMany checked).read).1
      simp only [Written.counted, length_zip, width, Nat.min_self]

theorem RecordTransaction.follows_purgeDeleted
    (before : Int64) (atMost : Option Nat) (state : RecordState) :
    (Applied.whole (records.purgeDeleted context table before atMost)
      Written.counted state).Follows
      (untilRefused id ((Statement.purgeDeleted before atMost).rowWrites records context
          table state.transaction) state) :=
  Applied.follows_whole (records.run_purgeDeleted_eq context table before atMost state)
    (fun row between => ⟨_, run_eraseRow table row between⟩)
    (fun _ _ => rfl)

/-- A predicate write is counted when none of its rows is refused. -/
theorem PredicateWrite.whole_operation
    (atMost : Option Nat) (write : PredicateWrite) (state : RecordState) :
    let ended := Applied.whole (write.operation records context table atMost)
        Written.touched state
    let stopped := untilRefused id
        (write.rowWrites records context table atMost state.transaction)
        state
    ended.state = stopped.state ∧ ended.applied + (if true && !stopped.outcome.isOk then
            stopped.results.count true
          else 0) =
        stopped.results.count true := by
  cases found : write.matched records context table atMost state.transaction with
  | error error =>
      have ran : (write.operation records context table atMost).run state =
            (.error error, state) := by
        rw [operation_eq]
        exact run_reading_bind_of_error found
      simp only [Applied.whole, ran, rowWrites, found, unlessRefused]
      exact ⟨rfl, rfl⟩
  | ok rows =>
      have ran : (write.operation records context table atMost).run state =
            (collect (write.ofRow records context table) rows).run
              state := by
        rw [operation_eq]
        exact run_reading_bind_of_ok found
      simp only [Applied.whole, ran, run_collect_eq, rowWrites, found, unlessRefused]
      simp only [untilRefused_each]
      cases (untilRefused (write.ofRow records context table) rows state).outcome with
      | error error => simp [Except.map, Except.isOk, Except.toBool]
      | ok _ => simp [Except.map, Except.isOk, Except.toBool, Written.touched]

end

namespace Statement

/--
A session counts the rows that landed, except those of a predicate write that
landed before one was refused.
-/
theorem applied_add_uncounted
    (records : RecordTransaction) (context : SecurityContext) (table : TableDef)
    (statement : Statement) (state : RecordState) :
    (statement.apply records context table state).state =
        (statement.stopped records context table state).state ∧
      (statement.apply records context table state).applied +
          statement.uncounted records context table state =
        statement.landed records context table state := by
  cases statement with
  | insert rows upsert =>
      have follows := records.follows_writeMany context table
          (if upsert then .upsert else .insert) rows state
      cases upsert with
      | false
      | true => exact ⟨follows.state, follows.applied⟩
  | update rows expected arity =>
      cases isEmpty : expected.isEmpty with
      | true =>
          have follows := records.follows_writeMany context table .update rows state
          simp only [apply, stopped, landed, rowWrites, uncounted,
            isPredicateWrite, isEmpty]
          exact ⟨follows.state, follows.applied⟩
      | false =>
          have notEmpty : expected ≠ [] := by
            rw [Ne, ← List.isEmpty_iff, isEmpty]
            exact Bool.false_ne_true
          have width : (rows.zip expected).length = rows.length := by
            rw [length_zip, arity.resolve_left notEmpty, Nat.min_self]
          have finished := @Write.length_of_untilRefused _ _ (fun pair : Row × Row =>
                records.updateIfUnchanged context table pair.1 pair.2)
              (rows.zip expected) state
          simp only [apply, stopped, landed, rowWrites, uncounted,
            isPredicateWrite, isEmpty, Bool.false_eq_true, if_false,
            Bool.false_and, untilRefused_each, count_replicate_self, true_and]
          cases ended : (untilRefused (fun pair : Row × Row =>
              records.updateIfUnchanged context table pair.1 pair.2)
              (rows.zip expected) state).outcome with
          | error error => rfl
          | ok result =>
              rw [finished ended, width]
              rfl
  | delete keys expected arity =>
      cases isEmpty : expected.isEmpty with
      | true =>
          simp only [apply, stopped, landed, rowWrites, uncounted,
            isPredicateWrite, isEmpty, Bool.not_true, Bool.false_eq_true,
            if_false, if_true, Bool.false_and, untilRefused_map, true_and]
          rfl
      | false =>
          simp only [apply, stopped, landed, rowWrites, uncounted, isPredicateWrite,
            isEmpty, Bool.not_false, Bool.false_eq_true, if_false, if_true,
            Bool.false_and, untilRefused_each, count_replicate_self, true_and]
          rfl
  | purgeDeleted before atMost =>
      have follows := records.follows_purgeDeleted context table before atMost state
      exact ⟨follows.state, follows.applied⟩
  | deleteWhere predicate atMost =>
      exact (PredicateWrite.deleteWhere predicate).whole_operation records
        context table atMost state
  | updateWhere predicate assignments atMost =>
      exact (PredicateWrite.updateWhere predicate
        assignments).whole_operation records context table atMost state

end Statement

/-! ## What the tally holds -/

namespace Tally

/-- The rows reported under a label. -/
def reported (label : String × String) (calls : List ((String × String) × Nat)) : Nat :=
  ((calls.filter (fun call => call.1 = label)).map Prod.snd).sum

omit [Platform] in
theorem getElem?_applied
    (tally : Tally) (kind table : String) (rows : Nat) (ok : Bool)
    (label : String × String) :
    ((tally.applied kind table rows ok)[label]?).getD 0 =
      (tally[label]?).getD 0 + (if (kind, table) = label then rows else 0) := by
  rw [applied]
  split
  · rw [add, Std.ExtTreeMap.getElem?_alter]
    split
    · next same =>
        have isLabel := Std.LawfulEqCmp.eq_of_compare same
        rw [if_pos isLabel, ← isLabel]
        rfl
    · next other =>
        have notLabel : (kind, table) ≠ label :=
          fun isLabel => other (isLabel ▸ Std.ReflCmp.compare_self)
        rw [if_neg notLabel, Nat.add_zero]
  · next nothing =>
      have isZero : rows = 0 := by
        simp only [Bool.or_eq_true, decide_eq_true_eq, not_or] at nothing
        omega
      simp [isZero]

end Tally

/-! ## Runs of a session -/

namespace SessionWrite

/-- How many rows land under a label when a command is carried out. -/
def landed (records : RecordTransaction) (label : String × String)
    (command : SessionWrite) (session : SessionState) : Nat :=
  match records.catalog.table command.table with
  | none => 0
  | some table =>
      if (command.statement.kind, table.name) = label then
        command.statement.landed records command.context table session.records
      else
        0

/-- How many of them are not counted. -/
def uncounted (records : RecordTransaction) (label : String × String)
    (command : SessionWrite) (session : SessionState) : Nat :=
  match records.catalog.table command.table with
  | none => 0
  | some table =>
      if (command.statement.kind, table.name) = label then
        command.statement.uncounted records command.context table session.records
      else
        0

theorem getElem?_apply
    (records : RecordTransaction) (label : String × String)
    (command : SessionWrite) (session : SessionState) :
    ((session.apply records command).2.tally[label]?).getD 0 +
        command.uncounted records label session =
      (session.tally[label]?).getD 0 + command.landed records label session := by
  rw [SessionState.apply, landed, uncounted]
  cases records.catalog.table command.table with
  | none => rfl
  | some table =>
      have counted := (command.statement.applied_add_uncounted records command.context
          table session.records).2
      simp only [Tally.getElem?_applied]
      split
      · omega
      · rfl

end SessionWrite

namespace SessionTask

/-- Whether a step is a commit that succeeds. -/
def commits : SessionTask → SessionEvent → Bool
  | running state, .commit shared =>
      match (MemoryStore.commit shared state.records.transaction).2 with
      | .committed _ => true
      | .transactionConflict => false
  | _, _ => false

/-- Whether a session commits. -/
def committed (records : RecordTransaction) : SessionTask → List SessionEvent → Bool
  | _, [] => false
  | task, event :: rest =>
      task.commits event || committed records (task.step records event) rest

/-- What a command carried out in a step amounts to. -/
def measured (measure : SessionWrite → SessionState → Nat) :
    SessionTask → SessionEvent → Nat
  | running state, .write command => measure command state
  | _, _ => 0

/-- What the commands of a session amount to. -/
def total (records : RecordTransaction) (measure : SessionWrite → SessionState → Nat) :
    SessionTask → List SessionEvent → Nat
  | _, [] => 0
  | task, event :: rest =>
      task.measured measure event + total records measure (task.step records event) rest

/-- How many rows land under a label in the course of a session. -/
def landed (records : RecordTransaction) (label : String × String) :
    SessionTask → List SessionEvent → Nat :=
  total records (fun command state => command.landed records label state)

/-- A session that has begun with an empty tally. -/
def start (records : RecordState) : SessionTask :=
  running { records := records, tally := ∅ }

end SessionTask

end

/-! ## A predicate write refused at its second row -/

end SlateOrm
