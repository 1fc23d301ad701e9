import SlateOrm.StatementProgress

namespace SlateOrm

/-!
# Refused commands of a session

A session stays open when it refuses a command, and the client may still commit.
The commands that go through their rows one by one have written the rows before
the refused one by then, and a commit lands them.  So a refused command is as
if it had not been sent exactly when what it has buffered by its refusal was
buffered already: in particular when its first row is refused by its checks.
-/

/-! ## What a commit lands -/

namespace MemoryStore

theorem commit_new
    (transaction : Transaction) :
    commit Shared.new transaction =
      if transaction.pending.isEmpty then
        (Shared.new, .committed none)
      else
        ({ Shared.new with
            version := 1
            committed := Overlay.apply ∅ transaction.pending
            history := [(1, transaction.pending.keys)] },
          .committed (some 1)) :=
  rfl

/-- Transactions of one age commit alike when they have buffered the same. -/
theorem commit_eq_iff
    {first second : Transaction}
    (sameStart : first.startedAt = second.startedAt) :
    (∀ shared, commit shared first = commit shared second) ↔
      first.pending = second.pending := by
  constructor
  · intro alike
    have landed := alike Shared.new
    rw [commit_new, commit_new] at landed
    split at landed
    · next firstEmpty =>
        split at landed
        · next secondEmpty =>
            rw [Std.ExtTreeMap.isEmpty_iff.mp firstEmpty,
              Std.ExtTreeMap.isEmpty_iff.mp secondEmpty]
        · cases congrArg Prod.snd landed
    · split at landed
      · cases congrArg Prod.snd landed
      · have sameKeys : first.pending.keys = second.pending.keys := by
          simpa using congrArg (fun result => result.1.history) landed
        have sameBindings := congrArg (fun result => result.1.committed) landed
        apply Std.ExtTreeMap.ext_getElem?
        intro key
        have here := congrArg (fun entries : Kv => entries[key]?) sameBindings
        have isKey : key ∈ first.pending ↔ key ∈ second.pending := by
          rw [← Std.ExtTreeMap.mem_keys, sameKeys, Std.ExtTreeMap.mem_keys]
        simp only [Overlay.getElem?_apply] at here
        rw [Std.ExtTreeMap.mem_iff_isSome_getElem?,
          Std.ExtTreeMap.mem_iff_isSome_getElem?] at isKey
        cases inFirst : first.pending[key]? with
        | none =>
            cases inSecond : second.pending[key]? with
            | none => rfl
            | some _ => simp [inFirst, inSecond] at isKey
        | some _ =>
            cases inSecond : second.pending[key]? with
            | none => simp [inFirst, inSecond] at isKey
            | some _ =>
                rw [inFirst, inSecond] at here
                exact congrArg some here
  · intro samePending shared
    rw [commit, commit, samePending, Transaction.conflicts, samePending, sameStart]
    rfl

end MemoryStore

/--
A commit lands nothing of a refused operation exactly when what the operation
has buffered by its refusal was buffered already.
-/
theorem Progress.Describes.commits_iff
    {α β : Type} {progress : Progress α} {operation : α → Write β} {value : α}
    {state : RecordState} (describes : progress.Describes operation value state)
    (buffers : (operation value).Buffers) :
    (∀ error after, (operation value).run state = (.error error, after) →
      ∀ shared, MemoryStore.commit shared after.transaction =
          MemoryStore.commit shared state.transaction) ↔
      ∀ error changes, progress state value = .error (error, changes) →
        ∀ key written, Overlay.lastWrite key changes = some written →
          state.transaction.pending[key]? = some written := by
  rw [← describes.clean_iff]
  refine forall_congr' (fun error => forall_congr' (fun after => ?_))
  refine forall_congr' (fun failed => MemoryStore.commit_eq_iff ?_)
  obtain ⟨changes, buffered⟩ := buffers.changes state
  rw [failed] at buffered
  exact (congrArg MemoryStore.Transaction.startedAt buffered).trans rfl

/-! ## What a refused command leaves -/

namespace Statement

open Write

variable [Platform]

/-- A statement only buffers changes. -/
theorem buffers
    (records : RecordTransaction) (context : SecurityContext) (table : TableDef)
    (statement : Statement) :
    Buffers (statement.operation records context table) := by
  cases statement with
  | insert rows upsert =>
      cases upsert with
      | false
      | true =>
          exact Buffers.bind (records.buffers_writeMany ..) (fun _ => Buffers.pure _)
  | update rows expected _ =>
      simp only [operation]
      split
      · exact Buffers.bind (records.buffers_writeMany ..) (fun _ => Buffers.pure _)
      · exact Buffers.bind (Buffers.forEach (fun _ => records.buffers_updateIfUnchanged
          ..) _) (fun _ => Buffers.pure _)
  | delete keys expected _ =>
      simp only [operation]
      split
      · exact Buffers.bind (Buffers.forEach (fun _ => records.buffers_deleteIfUnchanged
          ..) _) (fun _ => Buffers.pure _)
      · exact Buffers.bind (Buffers.collect (fun _ => records.buffers_delete ..)
          _) (fun _ => Buffers.pure _)
  | purgeDeleted before atMost =>
      exact Buffers.bind (records.buffers_purgeDeleted ..) (fun _ => Buffers.pure _)
  | deleteWhere predicate atMost =>
      exact Buffers.bind (records.buffers_deleteWhere ..) (fun _ => Buffers.pure _)
  | updateWhere predicate assignments atMost =>
      exact Buffers.bind (records.buffers_updateWhere ..) (fun _ => Buffers.pure _)

/-- What a statement has buffered by its refusal was buffered already. -/
def RefusedBeforeWriting (records : RecordTransaction)
    (context : SecurityContext) (table : TableDef) (statement : Statement)
    (state : RecordState) : Prop :=
  ∀ error changes, progress records context table state statement =
      .error (error, changes) →
    ∀ key written, Overlay.lastWrite key changes = some written →
      state.transaction.pending[key]? = some written

end Statement

namespace SessionWrite

variable [Platform]

/--
Whatever has become of the store by then, a commit after a refused command
comes to what it would have come to before the command.
-/
def AllOrNothing (records : RecordTransaction) (command : SessionWrite)
    (session : SessionState) : Prop :=
  ∀ error after, session.apply records command = (.error error, after) →
    ∀ shared, MemoryStore.commit shared after.records.transaction =
        MemoryStore.commit shared session.records.transaction

/-- What a command has buffered by its refusal was buffered already. -/
def RefusedBeforeWriting (records : RecordTransaction)
    (command : SessionWrite) (session : SessionState) : Prop :=
  ∀ table, records.catalog.table command.table = some table →
    command.statement.RefusedBeforeWriting records command.context table session.records

theorem apply_of_table
    {records : RecordTransaction} {command : SessionWrite} {table : TableDef}
    (isTable : records.catalog.table command.table = some table)
    (session : SessionState) :
    ((session.apply records command).1, (session.apply records command).2.records) =
      (command.statement.operation records command.context table).run
        session.records := by
  rw [Statement.run_operation, SessionState.apply, isTable]

/--
A commit lands nothing of a refused command exactly when what the command has
buffered by its refusal was buffered already.
-/
theorem allOrNothing_iff
    {records : RecordTransaction}
    (catalogBuilt : ∀ owner ∈ records.catalog.tables,
      ∃ builder : TableBuilder, builder.build = .ok owner)
    (command : SessionWrite) (session : SessionState) :
    command.AllOrNothing records session ↔
      command.RefusedBeforeWriting records session := by
  have catalogWellFormed := wellFormed_of_built catalogBuilt
  cases isTable : records.catalog.table command.table with
  | none =>
      constructor
      · intro _ table isTable'
        rw [isTable] at isTable'
        cases isTable'
      · intro _ error after refused shared
        rw [SessionState.apply, isTable] at refused
        cases refused
        rfl
  | some table =>
      have wellFormed := catalogWellFormed table (List.mem_of_find?_eq_some isTable)
      have landing := (command.statement.progress_describes wellFormed catalogWellFormed
          command.context session.records).commits_iff
          (command.statement.buffers records command.context table)
      rw [← apply_of_table isTable session] at landing
      constructor
      · intro allOrNothing table' isTable'
        rw [isTable] at isTable'
        cases isTable'
        refine landing.mp (fun error after refused => ?_)
        obtain ⟨isRefused, rfl⟩ := Prod.mk.inj refused
        exact allOrNothing error _ (Prod.ext isRefused rfl)
      · intro refusedBefore error after refused
        obtain ⟨isRefused, rfl⟩ := Prod.mk.inj refused
        exact landing.mpr (refusedBefore table isTable) error _ (Prod.ext isRefused rfl)

end SessionWrite

/-! ## A command refused at its second row -/

/-- A session whose transaction has inserted two accounts. -/
def accountsSession : SessionState where
  records := twoAccounts
  tally := ∅

/-- The first account was not as expected: nothing of the update is left. -/
theorem allOrNothing_staleFirst :
    letI := asciiPlatform
    SessionWrite.AllOrNothing (.plain ⟨[accounts]⟩) ⟨.superuser, 1, .update
        [⟨[.i64 1, .i64 30, .i64 20]⟩, ⟨[.i64 2, .i64 31, .i64 21]⟩]
        [⟨[.i64 1, .i64 12, .i64 20]⟩, ⟨[.i64 2, .i64 11, .i64 21]⟩]
        (Or.inr rfl)⟩ accountsSession := by
  let _ : Platform := asciiPlatform
  refine (SessionWrite.allOrNothing_iff accounts_built _ _).mpr ?_
  intro table isTable error changes refused key written isLast
  have isAccounts : table = accounts := (Option.some.inj isTable).symm
  subst isAccounts
  have nothing : changes = [] := (congrArg
      (fun made : Except (KernelError × List Change) (List Change × RecordState) =>
        @Except.rec _ _ (fun _ => List Change) Prod.snd (fun _ => []) made)
      refused).symm
  rw [nothing] at isLast
  cases isLast

/-- What an update comes to whose second account was not as expected. -/
def staleSecond : Except KernelError Written × SessionState :=
  letI := asciiPlatform
  accountsSession.apply (.plain ⟨[accounts]⟩) ⟨.superuser, 1, .update
      [⟨[.i64 1, .i64 30, .i64 20]⟩, ⟨[.i64 2, .i64 31, .i64 21]⟩]
      [⟨[.i64 1, .i64 10, .i64 20]⟩, ⟨[.i64 2, .i64 12, .i64 21]⟩]
      (Or.inr rfl)⟩

/--
When the second account was not as expected, a commit after the refused update
lands the first account's.
-/
theorem not_allOrNothing_staleSecond :
    ¬∀ (_ : Platform) (records : RecordTransaction), (∀ owner ∈ records.catalog.tables,
        ∃ builder : TableBuilder, builder.build = .ok owner) →
      ∀ (context : SecurityContext) (table : TableId) (rows expected : List Row)
        (arity : expected = [] ∨ expected.length = rows.length)
        (session : SessionState),
        SessionWrite.AllOrNothing records
          ⟨context, table, .update rows expected arity⟩ session := by
  intro always
  have allOrNothing := always asciiPlatform (.plain ⟨[accounts]⟩)
    accounts_built .superuser 1
    [⟨[.i64 1, .i64 30, .i64 20]⟩, ⟨[.i64 2, .i64 31, .i64 21]⟩]
    [⟨[.i64 1, .i64 10, .i64 20]⟩, ⟨[.i64 2, .i64 12, .i64 21]⟩]
    (Or.inr rfl) accountsSession
  have isRefused : staleSecond.1.isOk = false := by decide
  cases refused : staleSecond.1 with
  | ok written =>
      rw [refused] at isRefused
      cases isRefused
  | error error =>
      have alike := allOrNothing error staleSecond.2 (Prod.ext refused rfl) .new
      have landed := congrArg
        (fun result : MemoryStore.Shared × MemoryStore.CommitResult =>
          result.1.committed[Keys.rowKey accounts [.i64 1]]?) alike
      exact absurd landed (by decide)

end SlateOrm
