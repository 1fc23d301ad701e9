import SlateOrm.RecordDelete

namespace SlateOrm

/-!
# Statements, alone and in a session

A statement that stands alone is carried out in a transaction of its own and is
over at its first refusal.  A session keeps one transaction open while its
client sends statements: a refused one is answered with its error and leaves the
session open, with whatever it had buffered by then.

Beside its transaction a session keeps a tally of the rows it has written.  The
write observer is told of it when the transaction has committed, and not
otherwise.
-/

/-! ## Statements -/

/--
What a client asks of one table.  The rows it expects, if any, are one for each
row or key, as the handler has checked when it decoded them.
-/
inductive Statement where
  | insert (rows : List Row) (upsert : Bool)
  | update (rows expected : List Row)
      (arity : expected = [] ∨ expected.length = rows.length)
  | delete (keys : List (List Value)) (expected : List Row)
      (arity : expected = [] ∨ expected.length = keys.length)
  | purgeDeleted (before : Int64) (atMost : Option Nat)
  | deleteWhere (predicate : Expr) (atMost : Option Nat)
  | updateWhere (predicate : Expr) (assignments : List (Ordinal × Scalar))
      (atMost : Option Nat)

/-- What a statement did: to how many rows, and to which if it tells. -/
structure Written where
  affected : Nat
  rows : List Row

/-- Rows that are told. -/
def Written.touched (rows : List Row) : Written where
  affected := rows.length
  rows := rows

/-- Rows that are only counted. -/
def Written.counted (affected : Nat) : Written where
  affected := affected
  rows := []

namespace Statement

/-- The label under which a session counts a statement. -/
def kind : Statement → String
  | insert .. => "insert"
  | update .. => "update"
  | delete .. => "delete"
  | purgeDeleted .. => "purge_deleted"
  | deleteWhere .. => "delete_where"
  | updateWhere .. => "update_where"

variable [Platform]

/-- Carry out a statement that stands alone, up to its first refusal. -/
def operation (records : RecordTransaction) (context : SecurityContext)
    (table : TableDef) : Statement → Write Written
  | insert rows false => do
      records.insertMany context table rows
      return .counted rows.length
  | insert rows true => do
      records.upsertMany context table rows
      return .counted rows.length
  | update rows expected _ => do
      if expected.isEmpty then
        records.updateMany context table rows
      else
        Write.forEach (fun pair =>
          records.updateIfUnchanged context table pair.1 pair.2)
          (rows.zip expected)
      return .counted rows.length
  | delete keys expected _ =>
      if !expected.isEmpty then do
        Write.forEach (fun pair =>
          records.deleteIfUnchanged context table pair.1 pair.2)
          (keys.zip expected)
        return .counted keys.length
      else do
        let there ← Write.collect (records.delete context table) keys
        return .counted (there.count true)
  | purgeDeleted before atMost => do
      let erased ← records.purgeDeleted context table before atMost
      return .counted erased
  | deleteWhere predicate atMost => do
      let rows ← records.deleteWhere context table predicate atMost
      return .touched rows
  | updateWhere predicate assignments atMost => do
      let rows ← records.updateWhere context table predicate assignments atMost
      return .touched rows

end Statement

/-! ## Loops that stop at a refusal -/

/-- How a loop over rows ended, and what the rows before the end returned. -/
structure Stopped (α : Type) where
  outcome : Except KernelError Unit
  results : List α
  state : RecordState

/-- An operation for every element until one is refused. -/
def Write.untilRefused {α β : Type} (operation : α → Write β) :
    List α → RecordState → Stopped β
  | [], state => ⟨.ok (), [], state⟩
  | value :: rest, state =>
      match (operation value).run state with
      | (.error error, state) => ⟨.error error, [], state⟩
      | (.ok result, state) =>
          let stopped := Write.untilRefused operation rest state
          { stopped with results := result :: stopped.results }

/-! ## Statements in a session -/

/-- How a statement ended, and how many rows a session counts for it. -/
structure Applied where
  outcome : Except KernelError Written
  applied : Nat
  state : RecordState

/-- A statement that is counted in full when it succeeds, or not at all. -/
def Applied.whole {α : Type} (operation : Write α)
    (written : α → Written) (state : RecordState) : Applied :=
  match operation.run state with
  | (.ok value, state) => ⟨.ok (written value), (written value).affected, state⟩
  | (.error error, state) => ⟨.error error, 0, state⟩

namespace Statement

variable [Platform]

/-- Carry out a statement in a session. -/
def apply (records : RecordTransaction) (context : SecurityContext)
    (table : TableDef) (state : RecordState) : Statement → Applied
  | insert rows upsert =>
      .whole (if upsert then records.upsertMany context table rows
        else records.insertMany context table rows)
        (fun _ => .counted rows.length) state
  | update rows expected _ =>
      if expected.isEmpty then
        .whole (records.updateMany context table rows)
          (fun _ => .counted rows.length) state
      else
        let stopped := Write.untilRefused (fun pair =>
            records.updateIfUnchanged context table pair.1 pair.2)
            (rows.zip expected) state
        { outcome := stopped.outcome.map (fun _ => .counted rows.length)
          applied :=
            match stopped.outcome with
            | .ok _ => rows.length
            | .error _ => stopped.results.length
          state := stopped.state }
  | delete keys expected _ =>
      if !expected.isEmpty then
        let stopped := Write.untilRefused (fun pair =>
            records.deleteIfUnchanged context table pair.1 pair.2)
            (keys.zip expected) state
        { outcome := stopped.outcome.map (fun _ => .counted keys.length)
          applied := stopped.results.length
          state := stopped.state }
      else
        -- A row that the caller does not see deletes as absent.
        let stopped := Write.untilRefused (records.delete context table) keys state
        let affected := stopped.results.count true
        { outcome := stopped.outcome.map (fun _ => .counted affected)
          applied := affected
          state := stopped.state }
  | purgeDeleted before atMost =>
      .whole (records.purgeDeleted context table before atMost) .counted state
  | deleteWhere predicate atMost =>
      .whole (records.deleteWhere context table predicate atMost) .touched state
  | updateWhere predicate assignments atMost =>
      .whole (records.updateWhere context table predicate assignments atMost)
        .touched state

end Statement

/-! ## The tally -/

/-- The labels of the write observer, in order. -/
def labelOrder : String × String → String × String → Ordering :=
  compareLex (compareOn Prod.fst) (compareOn Prod.snd)

instance : Std.TransCmp labelOrder := inferInstanceAs (Std.TransCmp (compareLex _ _))

instance : Std.LawfulEqCmp labelOrder where
  eq_of_compare {first second} same := by
    simp only [labelOrder, compareLex, compareOn, Ordering.then_eq_eq,
      Std.LawfulEqOrd.compare_eq_iff_eq] at same
    exact Prod.ext same.1 same.2

/-- What a transaction has written under each label. -/
abbrev Tally := Std.ExtTreeMap (String × String) Nat labelOrder

namespace Tally

/-- Remember that a statement applied rows to a table. -/
def add (tally : Tally) (kind table : String) (affected : Nat) : Tally :=
  tally.alter (kind, table) (fun before => some (before.getD 0 + affected))

/-- A statement is counted unless it failed and applied nothing. -/
def applied (tally : Tally) (kind table : String) (rows : Nat) (ok : Bool) : Tally :=
  if ok || 0 < rows then tally.add kind table rows else tally

/-- What the write observer is told, one call for each label. -/
def report (tally : Tally) : List ((String × String) × Nat) := tally.toList

end Tally

/-! ## Sessions -/

/-- A statement that a client sends to its session. -/
structure SessionWrite where
  context : SecurityContext
  table : TableId
  statement : Statement

/-- The transaction of a session, and its tally. -/
structure SessionState where
  records : RecordState
  tally : Tally

/-- A session whose transaction has just begun. -/
def SessionState.begin (store : Kv) : SessionState where
  records := .begin store
  tally := ∅

/-- A session for as long as it lives, and what it has reported in the end. -/
inductive SessionTask where
  | running (state : SessionState)
  | ended (reported : List ((String × String) × Nat))

/-- What comes to a session. -/
inductive SessionEvent where
  | write (command : SessionWrite)
  /-- A read is answered. -/
  | read
  /-- A commit, with the store as it has become by then. -/
  | commit (shared : MemoryStore.Shared)
  | rollback
  /-- A command finds its writer fenced. -/
  | fenced
  /-- Nothing has come for too long. -/
  | idle
  /-- No handle to the session is left. -/
  | hungUp

variable [Platform]

namespace SessionState

/-- Carry out a statement, and answer it. -/
def apply (records : RecordTransaction) (command : SessionWrite)
    (session : SessionState) : Except KernelError Written × SessionState :=
  match records.catalog.table command.table with
  | none => (.error (.unknownTable command.table), session)
  | some table =>
      let ended := command.statement.apply records command.context table session.records
      (ended.outcome,
        { records := ended.state
          tally := session.tally.applied command.statement.kind table.name
              ended.applied ended.outcome.isOk })

end SessionState

namespace SessionTask

/-- Take one step.  A refused statement leaves the session open. -/
def step (records : RecordTransaction) : SessionTask → SessionEvent → SessionTask
  | running state, .write command => running (state.apply records command).2
  | running state, .read => running state
  | running state, .commit shared =>
      match (MemoryStore.commit shared state.records.transaction).2 with
      | .committed _ => ended state.tally.report
      | .transactionConflict => ended []
  | running _, .rollback => ended []
  | running _, .fenced => ended []
  | running _, .idle => ended []
  | running _, .hungUp => ended []
  | ended reported, _ => ended reported

end SessionTask

end SlateOrm
