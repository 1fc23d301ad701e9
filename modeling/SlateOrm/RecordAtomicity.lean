import SlateOrm.RecordWrites

namespace SlateOrm

open RecordTransaction Write

/-!
# Failed writes

Every operation checks before it writes, but a single-row write checks the
slots of its unique indexes while it writes the entries of the indexes before
them.  So a failed write leaves the buffered writes as they were exactly when
the entries written before the refused slot were buffered already.  Bulk writes
check every slot first, and always leave them as they were.
-/

/-- A write of rows under their primary keys. -/
inductive KeyedWrite where
  | insert (row : Row)
  | update (row : Row)
  | upsert (row : Row)
  | updateIfUnchanged (row expected : Row)
  | insertMany (rows : List Row)
  | upsertMany (rows : List Row)
  | updateMany (rows : List Row)

namespace KeyedWrite

theorem run_of_check
    {α : Type} (check : Snapshot → Except KernelError α) (next : α → Write Unit)
    (state : RecordState) :
    (∃ value, check state.transaction = .ok value ∧
      (reading check >>= next).run state = (next value).run state) ∨
      ((∃ error, check state.transaction = .error error) ∧ ∀ error after,
          (reading check >>= next).run state = (.error error, after) →
          after = state) := by
  cases checked : check state.transaction with
  | ok value => exact Or.inl ⟨value, rfl, run_reading_bind_of_ok checked⟩
  | error failed =>
      refine Or.inr ⟨⟨failed, rfl⟩, ?_⟩
      intro error after failure
      rw [run_reading_bind_of_error checked] at failure
      cases failure
      rfl

variable [Platform]

section

variable
  (records : RecordTransaction) (context : SecurityContext) (table : TableDef)
  (write : KeyedWrite)

/-- Carry out a write. -/
def operation : KeyedWrite → Write Unit
  | .insert row => records.insert context table row
  | .update row => records.update context table row
  | .upsert row => records.upsert context table row
  | .updateIfUnchanged row expected =>
      records.updateIfUnchanged context table row expected
  | .insertMany rows => records.insertMany context table rows
  | .upsertMany rows => records.upsertMany context table rows
  | .updateMany rows => records.updateMany context table rows

/-- A failed write leaves the buffered writes as they were. -/
def FailsCleanly (state : RecordState) : Prop :=
  ∀ error after, (write.operation records context table).run state =
      (.error error, after) →
    after.transaction.pending = state.transaction.pending

/--
The row that a single-row write is about to write and the one it replaces, if
it passes its checks.
-/
def target (snapshot : Snapshot) : KeyedWrite → Option (Row × Option Row)
  | .insert row =>
      match records.checkInsert context table row snapshot with
      | .ok _ => some (row, none)
      | .error _ => none
  | .update row =>
      match records.checkUpdate context table row snapshot with
      | .ok existing => some (row, some existing)
      | .error _ => none
  | .upsert row =>
      match records.checkUpsert context table row snapshot with
      | .ok existing => some (row, existing)
      | .error _ => none
  | .updateIfUnchanged row expected =>
      match records.checkUpdateIfUnchanged context table row expected
          snapshot with
      | .ok existing => some (row, some existing)
      | .error _ => none
  | _ => none

/--
Where a single-row write that passes its checks takes a unique slot that is
refused, the changes to the indexes before that slot are buffered already.
-/
def RefusedBeforeWriting (state : RecordState) : Prop :=
  ∀ row previous, write.target records context table state.transaction =
      some (row, previous) →
    ∀ error changes, RecordTransaction.refusedAfter table
          (records.stamped table row previous state.readings) previous
          state.transaction table.indexes = some (error, changes) →
      ∀ change ∈ changes, state.transaction.pending[change.1]? = some change.2

theorem eq_of_run_writeMany_error
    {records : RecordTransaction} {context : SecurityContext} {table : TableDef}
    {rows : List Row} {mode : BulkMode} {state after : RecordState}
    {error : KernelError}
    (failure : (records.writeMany context table rows mode).run state =
      (.error error, after)) :
    after = state := by
  rw [writeMany] at failure
  split at failure
  · cases failure
  · cases checked : records.checkMany context table rows mode state.transaction with
    | error error =>
        rw [run_reading_bind_of_error checked] at failure
        cases failure
        rfl
    | ok existing =>
        rw [run_reading_bind_of_ok checked] at failure
        obtain ⟨final, written⟩ := run_forEach_ok (fun (pair : Row × Option Row)
          (_ : pair ∈ rows.zip existing) between => ⟨_, run_writeRowWith_unverified
          records table pair.1 pair.2 between⟩) state
        rw [written] at failure
        cases failure

theorem run_operation_of_target
    (state : RecordState) :
    (∃ row previous, write.target records context table state.transaction =
          some (row, previous) ∧
        (write.operation records context table).run state =
          (records.writeRow table row previous).run state) ∨
      (write.target records context table state.transaction = none ∧
        ∀ error after, (write.operation records context table).run state =
            (.error error, after) →
          after = state) := by
  cases write with
  | insert row
  | update row
  | upsert row
  | updateIfUnchanged row expected =>
      refine Or.imp (fun passes => ⟨row, _, ?_, passes.choose_spec.2⟩)
        (fun fails => ⟨?_, fails.2⟩) (run_of_check _ _ state)
      · have passed := passes.choose_spec.1
        generalize passes.choose = found at passed ⊢
        rw [target, passed]
      · rw [target, fails.1.choose_spec]
  | insertMany rows
  | upsertMany rows
  | updateMany rows => exact Or.inr ⟨rfl, fun _ _ => eq_of_run_writeMany_error⟩

end

/--
A failed keyed write leaves the buffered writes as they were exactly when the
changes before a refused slot were buffered already.
-/
theorem failsCleanly_iff
    {builder : TableBuilder} {table : TableDef}
    (built : builder.build = .ok table)
    (records : RecordTransaction) (context : SecurityContext)
    (write : KeyedWrite) (state : RecordState) :
    write.FailsCleanly records context table state ↔
      write.RefusedBeforeWriting records context table state := by
  have wellFormed := TableBuilder.build_wellFormed built
  rcases run_operation_of_target records context table write state with
    ⟨row, previous, isTarget, written⟩ | ⟨noTarget, clean⟩
  · rw [run_writeRow wellFormed] at written
    constructor
    · intro failsCleanly row' previous' isTarget' error changes refused
      rw [isTarget] at isTarget'
      cases isTarget'
      simp only [refused] at written
      have unchanged := failsCleanly error _ written
      rw [RecordState.changed_pending,
        ticked_transaction] at unchanged
      have subset := subset_of_refusedAfter refused
      refine (Overlay.buffer_eq_self_iff _ ?_).mp unchanged
      intro first firstMember second secondMember
      exact flatMap_indexChanges_agree wellFormed
        (subset firstMember) (subset secondMember)
    · intro refusedBefore error after failure
      cases refused : refusedAfter table
          (records.stamped table row previous state.readings) previous
          state.transaction table.indexes with
      | none =>
          simp only [refused] at written
          rw [written] at failure
          cases failure
      | some refusal =>
          obtain ⟨reason, changes⟩ := refusal
          simp only [refused] at written
          rw [written] at failure
          cases failure
          rw [RecordState.changed_pending, ticked_transaction]
          have subset := subset_of_refusedAfter refused
          refine (Overlay.buffer_eq_self_iff _ ?_).mpr
            (refusedBefore row previous isTarget _ changes refused)
          intro first firstMember second secondMember
          exact flatMap_indexChanges_agree wellFormed
            (subset firstMember) (subset secondMember)
  · constructor
    · intro _ row previous isTarget
      rw [noTarget] at isTarget
      cases isTarget
    · intro _ error after failure
      rw [clean error after failure]

end KeyedWrite

/-! ## A refused slot after another index -/

/-- A table with two unique columns. -/
def accountsBuilder : TableBuilder where
  id := 1
  name := "accounts"
  columns := [
    { name := "id", type := .i64 },
    { name := "phone", type := .i64 },
    { name := "badge", type := .i64 }]
  primaryKey := ["id"]
  indexes := [
    { id := 1
      name := "accounts_phone"
      columns := [("phone", .asc)]
      unique := true },
    { id := 2
      name := "accounts_badge"
      columns := [("badge", .asc)]
      unique := true }]

/-- The table that the builder makes. -/
def accounts : TableDef where
  id := 1
  name := "accounts"
  columns := accountsBuilder.columns.map ColumnSpec.toColumn
  primaryKey := [0]
  bodyColumns := [1, 2]
  storedColumns := [1, 2]
  indexes := [ ⟨1, "accounts_phone", [⟨1, .asc⟩], true, none, none, false⟩,
    ⟨2, "accounts_badge", [⟨2, .asc⟩], true, none, none, false⟩]
  checks := []
  foreignKeys := []
  tenantColumn := none
  softDelete := none
  schemaVersion := 0

/-- A transaction that has inserted an account with phone 10 and badge 20. -/
def oneAccount : RecordState :=
  letI := asciiPlatform
  (((RecordTransaction.plain ⟨[accounts]⟩).insert .superuser accounts
    ⟨[.i64 1, .i64 10, .i64 20]⟩).run (.begin ∅)).2

/-- An account whose phone is taken is refused before anything is written. -/
theorem failsCleanly_takenPhone :
    letI := asciiPlatform
    accountsBuilder.build = .ok accounts ∧
      (KeyedWrite.insert ⟨[.i64 2, .i64 10, .i64 21]⟩).FailsCleanly
        (.plain ⟨[accounts]⟩) .superuser accounts oneAccount := by
  let _ : Platform := asciiPlatform
  have built : accountsBuilder.build = .ok accounts := rfl
  refine ⟨built, (KeyedWrite.failsCleanly_iff built _ _ _ _).mpr ?_⟩
  intro row previous isTarget error changes refused change member
  have target : (KeyedWrite.insert ⟨[.i64 2, .i64 10, .i64 21]⟩).target
        (.plain ⟨[accounts]⟩) .superuser accounts oneAccount.transaction =
        some (⟨[.i64 2, .i64 10, .i64 21]⟩, none) :=
    rfl
  rw [target] at isTarget
  cases isTarget
  have nothing : changes = [] :=
    (congrArg (fun found => (found.map Prod.snd).getD []) refused).symm
  rw [nothing] at member
  cases member

/--
An account whose badge is taken is refused after its phone has been written
to the index of phones.
-/
theorem not_failsCleanly_takenBadge :
    ¬∀ (_ : Platform) (builder : TableBuilder) (table : TableDef),
      builder.build = .ok table →
      ∀ (records : RecordTransaction) (context : SecurityContext)
        (write : KeyedWrite) (state : RecordState),
        write.FailsCleanly records context table state := by
  intro always
  let _ : Platform := asciiPlatform
  have outcome : (((plain ⟨[accounts]⟩).insert .superuser accounts
        ⟨[.i64 2, .i64 11, .i64 20]⟩).run oneAccount).1 =
        .error (.uniqueViolation "accounts" "accounts_badge") :=
    rfl
  have unchanged := always asciiPlatform accountsBuilder accounts rfl
    (.plain ⟨[accounts]⟩) .superuser
    (.insert ⟨[.i64 2, .i64 11, .i64 20]⟩) oneAccount _ _
    (Prod.ext outcome rfl)
  have written := congrArg
    (fun pending : Pending => pending[([2, 0, 0, 0, 1, 22, 11] : Bytes)]?)
    unchanged
  exact absurd written (by decide)

end SlateOrm
