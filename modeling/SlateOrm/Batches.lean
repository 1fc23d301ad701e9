import SlateOrm.SessionAtomicity

namespace SlateOrm

/-!
# All-or-nothing batches

A batch on its own is one transaction: an attempt begins it, carries out the
operations and commits, and is made again when the commit loses a conflict.  So
either one commit lands all of its operations, or nothing of them lands.

A batch inside a caller's transaction sends its operations to the session one
after the other, and stops at the first that is refused.  The session stays
open, so what the batch has buffered by then lands with the caller's commit,
unless it was buffered already.
-/

/-! ## Attempts -/

section

variable {ε α : Type}

/--
Make an attempt until it does not fail in a way worth a retry: the outcome, and
the numbers of the attempts made.
-/
def withRetriesFrom (isRetryable : ε → Bool) (conflict : ε)
    (attempt : Nat → Except ε α) :
    Nat → Nat → Option ε → Except ε α × List Nat
  | 0, _, last => (.error (last.getD conflict), [])
  | remaining + 1, number, _ =>
      match attempt number with
      | .ok value => (.ok value, [number])
      | .error error =>
          if isRetryable error then
            let later := withRetriesFrom isRetryable conflict attempt remaining
                (number + 1) (some error)
            (later.1, number :: later.2)
          else
            (.error error, [number])

/-- Make at least one attempt, and no more than a policy allows. -/
def withRetries (isRetryable : ε → Bool) (conflict : ε)
    (maxAttempts : Nat) (attempt : Nat → Except ε α) :
    Except ε α × List Nat :=
  withRetriesFrom isRetryable conflict attempt (max maxAttempts 1) 1 none

/-- Every attempt fails but the last, and that is the outcome. -/
theorem withRetriesFrom_spec
    (isRetryable : ε → Bool) (conflict : ε) (attempt : Nat → Except ε α)
    (remaining number : Nat) (last : Option ε) :
    match withRetriesFrom isRetryable conflict attempt remaining number
        last with
    | (.error _, made) => ∀ other ∈ made, ∃ error, attempt other = .error error
    | (.ok value, made) =>
        ∃ front final, made = front ++ [final] ∧ attempt final = .ok value ∧
          ∀ other ∈ front, ∃ error, attempt other = .error error := by
  induction remaining generalizing number last with
  | zero =>
      intro other member
      cases member
  | succ remaining ih =>
      rw [withRetriesFrom]
      cases tried : attempt number with
      | ok value =>
          exact ⟨[], number, rfl, tried, fun _ member => absurd member List.not_mem_nil⟩
      | error error =>
          by_cases retryable : isRetryable error = true
          · have later := ih (number + 1) (some error)
            simp only [retryable, if_true]
            cases ended : withRetriesFrom isRetryable conflict attempt
                remaining (number + 1) (some error) with
            | mk outcome made =>
                rw [ended] at later
                cases outcome with
                | error _ =>
                    intro other member
                    rcases List.mem_cons.mp member with rfl | inLater
                    · exact ⟨error, tried⟩
                    · exact later other inLater
                | ok value =>
                    obtain ⟨front, final, rfl, succeeded, failed⟩ := later
                    refine ⟨number :: front, final, rfl, succeeded, ?_⟩
                    intro other member
                    rcases List.mem_cons.mp member with rfl | inFront
                    · exact ⟨error, tried⟩
                    · exact failed other inFront
          · simp only [retryable, Bool.false_eq_true, if_false]
            intro other member
            rw [List.mem_singleton.mp member]
            exact ⟨error, tried⟩

end

/-! ## Batches on their own -/

/-- Why a transaction has failed. -/
inductive TransactError where
  | kernel (error : KernelError)
  | transactionConflict
  deriving DecidableEq, Repr

/-- Only a conflict can be won at the next attempt. -/
def TransactError.isRetryable : TransactError → Bool
  | kernel _ => false
  | transactionConflict => true

/-- A batch's operation, decoded, on a table of the catalog. -/
structure BatchOperation (catalog : Catalog) where
  table : TableDef
  statement : Statement
  isTable : catalog.table table.id = some table

/--
What an attempt meets: the store as it begins, the store as it commits, and how
often the clock was read before.
-/
structure AttemptSetting where
  begun : MemoryStore.Shared
  reached : MemoryStore.Shared
  readings : Nat

/-- The transaction that an attempt begins. -/
def AttemptSetting.begin (setting : AttemptSetting) : RecordState where
  transaction := {
    snapshot := some setting.begun.committed
    startedAt := setting.begun.version
    pending := ∅ }
  readings := setting.readings

namespace Batch

variable [Platform]

section

variable
  (records : RecordTransaction) (context : SecurityContext) (operations : List (BatchOperation records.catalog))

/-- Carry out the operations of a batch, up to the first refusal. -/
def apply : Write (List Written) :=
  Write.collect (fun operation =>
    operation.statement.operation records context operation.table)
    operations

/-- One attempt at a batch, and the store that it leaves. -/
def attempt (setting : AttemptSetting) :
    Except TransactError (List Written × Option Nat) × MemoryStore.Shared :=
  match (apply records context operations).run setting.begin with
  | (.error error, _) => (.error (.kernel error), setting.reached)
  | (.ok wrote, after) =>
      match MemoryStore.commit setting.reached after.transaction with
      | (shared, .committed version) => (.ok (wrote, version), shared)
      | (shared, .transactionConflict) => (.error .transactionConflict, shared)

/-- Carry out a batch on its own, and the attempts it has taken. -/
def alone (maxAttempts : Nat) (settings : Nat → AttemptSetting) :
    Except TransactError (List Written × Option Nat) × List Nat :=
  withRetries TransactError.isRetryable .transactionConflict maxAttempts
    (fun number => (attempt records context operations (settings number)).1)

/-! ## Batches inside a transaction -/

/-- Send the operations of a batch to a session, up to the first refusal. -/
def inside (records : RecordTransaction) (context : SecurityContext) :
    List (BatchOperation records.catalog) → SessionState →
      Except KernelError Unit × SessionState
  | [], session => (.ok (), session)
  | operation :: rest, session =>
      match session.apply records
          ⟨context, operation.table.id, operation.statement⟩ with
      | (.error error, session) => (.error error, session)
      | (.ok _, session) => inside records context rest session

/-! ## What a batch buffers -/

/-- What an operation makes of a state. -/
def progress (records : RecordTransaction) (context : SecurityContext) :
    Progress (BatchOperation records.catalog) :=
  fun state operation =>
    Statement.progress records context operation.table state operation.statement

/-- How a batch is carried out. -/
inductive Form where
  | alone (maxAttempts : Nat) (settings : Nat → AttemptSetting)
  | inside (session : SessionState)

/-- An attempt has landed what all operations of a batch buffer, once. -/
def LandsAll (setting : AttemptSetting) : Prop :=
  ∃ changes after, (progress records context).each setting.begin operations =
        .ok (changes, after) ∧
      (attempt records context operations setting).2.committed =
        Overlay.apply setting.reached.committed (Overlay.buffer ∅ changes)

/-- An attempt has left the store as it was. -/
def LandsNothing (setting : AttemptSetting) : Prop :=
  (attempt records context operations setting).2 = setting.reached

/--
A batch on its own lands all of its operations once, with its last attempt, or
nothing of them.  Whatever has become of the store by then, a commit after a
refused batch inside a transaction comes to what it would have come to before
the batch.
-/
def AllOrNothing : Form → Prop
  | .alone maxAttempts settings =>
      match Batch.alone records context operations maxAttempts settings with
      | (.error _, made) =>
          ∀ number ∈ made, LandsNothing records context operations (settings number)
      | (.ok _, made) =>
          ∃ front last, made = front ++ [last] ∧
            LandsAll records context operations (settings last) ∧
            ∀ number ∈ front, LandsNothing records context operations (settings number)
  | .inside session =>
      ∀ error after, Batch.inside records context operations session =
          (.error error, after) →
        ∀ shared, MemoryStore.commit shared after.records.transaction =
            MemoryStore.commit shared session.records.transaction

/--
A batch is on its own, or what it has buffered by its refusal was buffered in
the session already.
-/
def RefusedBeforeWriting : Form → Prop
  | .alone _ _ => True
  | .inside session =>
      ∀ error changes, (progress records context).each session.records operations =
          .error (error, changes) →
        ∀ key written, Overlay.lastWrite key changes = some written →
          session.records.transaction.pending[key]? = some written

/-! ## What a batch lands -/

end

theorem progress_describes
    {records : RecordTransaction}
    (catalogWellFormed : ∀ owner ∈ records.catalog.tables, owner.WellFormed)
    (context : SecurityContext)
    (operations : List (BatchOperation records.catalog)) (state : RecordState) :
    (progress records context).each.Describes (apply records context)
      operations state := by
  refine Progress.describes_each (fun operation _ between => ?_) state
  have wellFormed := catalogWellFormed operation.table
    (List.mem_of_find?_eq_some operation.isTable)
  exact (operation.statement.progress_describes wellFormed
    catalogWellFormed context between).congr rfl rfl

section

variable
  (records : RecordTransaction)
  (context : SecurityContext)
  (operations : List (BatchOperation records.catalog))

include records context operations

theorem buffers :
    (apply records context operations).Buffers :=
  Write.Buffers.collect (fun operation =>
    operation.statement.buffers records context operation.table) operations

theorem inside_eq
    (session : SessionState) :
    ((inside records context operations session).1,
        (inside records context operations session).2.records) =
      ((do
        let _ ← apply records context operations
        return ()) : Write Unit).run session.records := by
  induction operations generalizing session with
  | nil => rfl
  | cons operation rest ih =>
      have first := @SessionWrite.apply_of_table _ records
        ⟨context, operation.table.id, operation.statement⟩ operation.table
        operation.isTable session
      simp only [apply, inside, Write.collect, Write.run_bind, ← first] at ih ⊢
      cases session.apply records
          ⟨context, operation.table.id, operation.statement⟩ with
      | mk outcome between =>
          cases outcome with
          | error error => rfl
          | ok written =>
              simp only [ih between]
              split
              · rfl
              · rfl

end

omit [Platform] in
theorem commit_spec
    (shared : MemoryStore.Shared) (transaction : MemoryStore.Transaction) :
    (∃ after version,
      MemoryStore.commit shared transaction = (after, .committed version) ∧
        after.committed = Overlay.apply shared.committed transaction.pending) ∨
      MemoryStore.commit shared transaction = (shared, .transactionConflict) := by
  cases isEmpty : transaction.pending.isEmpty with
  | true =>
      refine Or.inl ⟨shared, none, if_pos isEmpty, ?_⟩
      rw [Std.ExtTreeMap.isEmpty_iff.mp isEmpty, Overlay.apply_empty]
  | false =>
      have notEmpty : ¬transaction.pending.isEmpty = true := by
        simp [isEmpty]
      rw [MemoryStore.commit, if_neg notEmpty]
      split
      · exact Or.inr rfl
      · exact Or.inl ⟨_, _, rfl, rfl⟩

section

variable
  {records : RecordTransaction}
  (catalogWellFormed : ∀ owner ∈ records.catalog.tables, owner.WellFormed)
  (context : SecurityContext)
  (operations : List (BatchOperation records.catalog))

include catalogWellFormed context operations

theorem attempt_spec
    (setting : AttemptSetting) :
    ((∃ error, (attempt records context operations setting).1 = .error error) ∧
      LandsNothing records context operations setting) ∨
      ((∃ answer, (attempt records context operations setting).1 = .ok answer) ∧
        LandsAll records context operations setting) := by
  have described :=
    progress_describes catalogWellFormed context operations setting.begin
  rw [Progress.Describes] at described
  rw [LandsNothing, LandsAll]
  cases made : (progress records context).each setting.begin operations with
  | error refused =>
      rw [made] at described
      obtain ⟨after, failed, _⟩ := described
      simp only [attempt, failed]
      exact Or.inl ⟨⟨_, rfl⟩, trivial⟩
  | ok progressed =>
      rw [made] at described
      obtain ⟨⟨wrote, succeeded⟩, buffered⟩ := described
      rcases commit_spec setting.reached progressed.2.transaction with
        ⟨shared, version, landed, committed⟩ | conflict
      · simp only [attempt, succeeded, landed]
        refine Or.inr ⟨⟨_, rfl⟩, progressed.1, progressed.2, rfl, ?_⟩
        rw [committed, buffered]
        rfl
      · simp only [attempt, succeeded, conflict]
        exact Or.inl ⟨⟨_, rfl⟩, trivial⟩

/-- A batch on its own lands all of its operations once, or nothing. -/
theorem allOrNothing_alone
    (maxAttempts : Nat) (settings : Nat → AttemptSetting) :
    AllOrNothing records context operations (.alone maxAttempts settings) := by
  have failed : ∀ number, (∃ error,
        (attempt records context operations (settings number)).1 = .error error) →
      LandsNothing records context operations (settings number) := by
    rintro number ⟨error, isError⟩
    rcases attempt_spec catalogWellFormed context operations
      (settings number) with ⟨_, nothing⟩ | ⟨⟨answer, isOk⟩, _⟩
    · exact nothing
    · rw [isError] at isOk
      cases isOk
  have tried := withRetriesFrom_spec TransactError.isRetryable .transactionConflict
    (fun number => (attempt records context operations (settings number)).1)
    (max maxAttempts 1) 1 none
  rw [AllOrNothing, alone, withRetries]
  split
  · next error made ended =>
      rw [ended] at tried
      exact fun number member => failed number (tried number member)
  · next answer made ended =>
      rw [ended] at tried
      obtain ⟨front, last, isMade, succeeded, others⟩ := tried
      refine ⟨front, last, isMade, ?_, fun number member =>
        failed number (others number member)⟩
      rcases attempt_spec catalogWellFormed context operations
        (settings last) with ⟨⟨error, isError⟩, _⟩ | ⟨_, all⟩
      · rw [isError] at succeeded
        cases succeeded
      · exact all

end

/--
A batch is all or nothing exactly when it is on its own, or what it has buffered
by its refusal was buffered in the caller's transaction already.
-/
theorem batch_allOrNothing_iff
    {records : RecordTransaction}
    (catalogBuilt : ∀ owner ∈ records.catalog.tables,
      ∃ builder : TableBuilder, builder.build = .ok owner)
    (context : SecurityContext)
    (operations : List (BatchOperation records.catalog)) (form : Form) :
    AllOrNothing records context operations form ↔
      RefusedBeforeWriting records context operations form := by
  have catalogWellFormed := wellFormed_of_built catalogBuilt
  cases form with
  | alone maxAttempts settings =>
      exact iff_of_true (allOrNothing_alone catalogWellFormed context operations
        maxAttempts settings) trivial
  | inside session =>
      have landing := ((progress_describes catalogWellFormed context operations
          session.records).map (fun _ => ())).commits_iff
          ((buffers records context operations).bind (fun _ => Write.Buffers.pure ()))
      rw [← inside_eq] at landing
      refine Iff.trans ?_ landing
      constructor
      · intro allOrNothing error after refused
        obtain ⟨isRefused, rfl⟩ := Prod.mk.inj refused
        exact allOrNothing error _ (Prod.ext isRefused rfl)
      · intro lands error after refused
        obtain ⟨isRefused, rfl⟩ := Prod.mk.inj refused
        exact lands error _ (Prod.ext isRefused rfl)

end Batch

/-! ## A batch refused at its second operation -/

/-- The insertion of an account. -/
def accountInsertion (id phone badge : Int64) :
    BatchOperation (RecordTransaction.plain ⟨[accounts]⟩).catalog where
  table := accounts
  statement := .insert [⟨[.i64 id, .i64 phone, .i64 badge]⟩] false
  isTable := rfl

/-- The first account's phone is taken: nothing of the batch is left. -/
theorem batch_allOrNothing_takenPhone :
    letI := asciiPlatform
    Batch.AllOrNothing (.plain ⟨[accounts]⟩) .superuser
      [accountInsertion 2 10 21, accountInsertion 3 12 22]
      (.inside { records := oneAccount, tally := ∅ }) := by
  let _ : Platform := asciiPlatform
  refine (Batch.batch_allOrNothing_iff accounts_built _ _ _).mpr ?_
  intro error changes refused key written isLast
  have nothing : changes = [] := (congrArg
      (fun made : Except (KernelError × List Change) (List Change × RecordState) =>
        @Except.rec _ _ (fun _ => List Change) Prod.snd (fun _ => []) made)
      refused).symm
  rw [nothing] at isLast
  cases isLast

/-- A batch of two accounts with one phone, sent to a new session. -/
def takenPhoneBatch : Except KernelError Unit × SessionState :=
  letI := asciiPlatform
  Batch.inside (.plain ⟨[accounts]⟩) .superuser
    [accountInsertion 1 10 20, accountInsertion 2 10 21] (.begin ∅)

/--
When the second account's phone is taken, a commit after the refused batch lands
the first account.
-/
theorem not_batch_allOrNothing_takenPhone :
    ¬∀ (_ : Platform) (records : RecordTransaction), (∀ owner ∈ records.catalog.tables,
        ∃ builder : TableBuilder, builder.build = .ok owner) →
      ∀ (context : SecurityContext) (operations : List (BatchOperation records.catalog))
        (form : Batch.Form),
        Batch.AllOrNothing records context operations form := by
  intro always
  have allOrNothing := always asciiPlatform (.plain ⟨[accounts]⟩)
    accounts_built .superuser
    [accountInsertion 1 10 20, accountInsertion 2 10 21]
    (.inside (.begin ∅))
  have isRefused : takenPhoneBatch.1.isOk = false := by decide
  cases refused : takenPhoneBatch.1 with
  | ok _ =>
      rw [refused] at isRefused
      cases isRefused
  | error error =>
      have alike := allOrNothing error takenPhoneBatch.2 (Prod.ext refused rfl) .new
      have landed := congrArg
        (fun result : MemoryStore.Shared × MemoryStore.CommitResult =>
          result.1.committed[Keys.rowKey accounts [.i64 1]]?) alike
      exact absurd landed (by decide)

end SlateOrm
