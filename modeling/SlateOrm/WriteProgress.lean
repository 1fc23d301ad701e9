import SlateOrm.RecordWrites

namespace SlateOrm

open Write Overlay

/-!
# What operations buffer

What an operation makes of a state is told by its progress: the changes it
buffers and the state it leaves, or its refusal and the changes it has buffered
by then.  The progress of a composed operation is put together from those of its
parts.  A refused operation leaves the buffered writes as they were exactly when
the last change to each key that it has made by then was buffered already.
-/

/-! ## Progress -/

/--
What an operation makes of a state: the changes it buffers and the state it
leaves, or the refusal and the changes it has buffered by then.
-/
abbrev Progress (α : Type) := RecordState → α →
    Except (KernelError × List Change) (List Change × RecordState)

/-- An operation does what its progress says. -/
def Progress.Describes {α β : Type} (progress : Progress α)
    (operation : α → Write β) (value : α) (state : RecordState) : Prop :=
  match progress state value with
  | .ok (changes, after) =>
      (∃ result, (operation value).run state = (.ok result, after)) ∧
        after.transaction.pending = Overlay.buffer state.transaction.pending changes
  | .error (error, changes) =>
      ∃ after, (operation value).run state = (.error error, after) ∧
        after.transaction.pending = Overlay.buffer state.transaction.pending changes

/-- The refusal of a loop, with the changes it has buffered by then. -/
def Progress.refusal {α : Type} (progress : Progress α) :
    RecordState → List α → Option (KernelError × List Change)
  | _, [] => none
  | state, value :: rest =>
      match progress state value with
      | .error refused => some refused
      | .ok (changes, after) =>
          (progress.refusal after rest).map
            (fun refused => (refused.1, changes ++ refused.2))

/-! ## Progress of composed operations -/

namespace Progress

variable {α β γ : Type}

/-- A check of the transaction's view, and what is made of its result. -/
def after (check : α → Snapshot → Except KernelError β)
    (next : α → Progress β) : Progress α :=
  fun state value =>
    match check value state.transaction with
    | .error error => .error (error, [])
    | .ok found => next value state found

/-- One operation for each element, up to the first refusal. -/
def each (progress : Progress α) : Progress (List α)
  | state, [] => .ok ([], state)
  | state, value :: rest =>
      match progress state value with
      | .error refused => .error refused
      | .ok (changes, between) =>
          match progress.each between rest with
          | .error (error, more) => .error (error, changes ++ more)
          | .ok (more, after) => .ok (changes ++ more, after)

theorem refusal_eq
    (progress : Progress α) (state : RecordState) (values : List α) :
    progress.refusal state values =
      match progress.each state values with
      | .error refused => some refused
      | .ok _ => none := by
  induction values generalizing state with
  | nil => rfl
  | cons value rest ih =>
      simp only [each, refusal]
      cases progress state value with
      | error _ => rfl
      | ok progressed =>
          obtain ⟨changes, between⟩ := progressed
          simp only [ih between]
          cases progress.each between rest <;> rfl

variable {state : RecordState}

section

variable
  {progress : Progress α}

theorem each_eq_error
    {values : List α} {refused : KernelError × List Change} :
    progress.each state values = .error refused ↔
      progress.refusal state values = some refused := by
  rw [refusal_eq]
  cases progress.each state values <;> simp

theorem describes_nothing
    {operation : α → Write β} {value : α} {result : β}
    (made : progress state value = .ok ([], state))
    (ran : (operation value).run state = (.ok result, state)) :
    progress.Describes operation value state := by
  rw [Describes, made]
  exact ⟨⟨result, ran⟩, rfl⟩

theorem describes_refused
    {operation : α → Write β} {value : α} {error : KernelError}
    (made : progress state value = .error (error, []))
    (ran : (operation value).run state = (.error error, state)) :
    progress.Describes operation value state := by
  rw [Describes, made]
  exact ⟨state, ran, rfl⟩

theorem Describes.congr
    {operation : α → Write β} {value : α}
    (describes : progress.Describes operation value state) {other : Progress γ}
    {otherOperation : γ → Write β} {otherValue : γ}
    (made : other state otherValue = progress state value)
    (ran : (otherOperation otherValue).run state = (operation value).run state) :
    other.Describes otherOperation otherValue state := by
  rw [Describes] at describes ⊢
  rw [made, ran]
  exact describes

theorem Describes.map
    {operation : α → Write β} {value : α}
    (describes : progress.Describes operation value state) (next : β → γ) :
    progress.Describes (fun value => do
        let result ← operation value
        return next result) value state := by
  rw [Describes] at describes ⊢
  cases made : progress state value with
  | error refused =>
      rw [made] at describes
      obtain ⟨after, failed, buffered⟩ := describes
      exact ⟨after, run_bind_of_error failed, buffered⟩
  | ok progressed =>
      rw [made] at describes
      obtain ⟨⟨result, succeeded⟩, buffered⟩ := describes
      exact ⟨⟨next result, run_bind_of_ok succeeded⟩, buffered⟩

end

theorem describes_after
    (check : α → Snapshot → Except KernelError β) {next : α → Progress β}
    {operation : α → β → Write γ} (value : α) (state : RecordState)
    (describes : ∀ found, check value state.transaction = .ok found →
      (next value).Describes (operation value) found state) :
    (after check next).Describes
      (fun value => reading (check value) >>= operation value) value
      state := by
  cases checked : check value state.transaction with
  | error error =>
      refine describes_refused ?_ (run_reading_bind_of_error checked)
      rw [after, checked]
  | ok found =>
      refine (describes found checked).congr ?_ (run_reading_bind_of_ok checked)
      rw [after, checked]

/-- A loop does what its elements do, up to the first refusal. -/
theorem describes_each
    {progress : Progress α} {operation : α → Write β} {values : List α}
    (describes : ∀ value ∈ values, ∀ state, progress.Describes operation value state)
    (state : RecordState) :
    progress.each.Describes (collect operation) values state := by
  induction values generalizing state with
  | nil => exact describes_nothing rfl rfl
  | cons value rest ih =>
      have head := describes value (List.mem_cons_self ..) state
      rw [Describes] at head ⊢
      rw [each]
      cases made : progress state value with
      | error refused =>
          rw [made] at head
          obtain ⟨after, failed, buffered⟩ := head
          exact ⟨after, run_bind_of_error failed, buffered⟩
      | ok progressed =>
          obtain ⟨changes, between⟩ := progressed
          rw [made] at head
          obtain ⟨⟨result, succeeded⟩, buffered⟩ := head
          have tail := (ih (fun other member =>
            describes other (List.mem_cons_of_mem _ member)) between).map
              (fun results => result :: results)
          have unfolded : (collect operation (value :: rest)).run state = ((do
                  let results ← collect operation rest
                  return result :: results) : Write (List β)).run between :=
            run_bind_of_ok succeeded
          rw [Describes] at tail
          rw [unfolded]
          cases madeRest : progress.each between rest with
          | error refused =>
              obtain ⟨error, more⟩ := refused
              rw [madeRest] at tail
              obtain ⟨after, failed, bufferedRest⟩ := tail
              simp only [madeRest]
              refine ⟨after, failed, ?_⟩
              rw [bufferedRest, buffered, ← buffer_append]
          | ok progressed =>
              obtain ⟨more, after⟩ := progressed
              rw [madeRest] at tail
              obtain ⟨succeededRest, bufferedRest⟩ := tail
              simp only [madeRest]
              refine ⟨succeededRest, ?_⟩
              rw [bufferedRest, buffered, ← buffer_append]

/--
A failed operation leaves the buffered writes as they were exactly when the last
change to each key that it makes before its refusal was buffered already.
-/
theorem Describes.clean_iff
    {progress : Progress α} {operation : α → Write β} {value : α}
    (describes : progress.Describes operation value state) :
    (∀ error after, (operation value).run state = (.error error, after) →
      after.transaction.pending = state.transaction.pending) ↔
      ∀ error changes, progress state value = .error (error, changes) →
        ∀ key written, lastWrite key changes = some written →
          state.transaction.pending[key]? = some written := by
  rw [Describes] at describes
  cases made : progress state value with
  | error refused =>
      obtain ⟨error, changes⟩ := refused
      rw [made] at describes
      obtain ⟨after, failed, buffered⟩ := describes
      have unchanged := buffer_eq_self_iff_lastWrite state.transaction.pending changes
      constructor
      · intro failsCleanly _ _ isRefused
        cases isRefused
        exact unchanged.mp (buffered ▸ failsCleanly error after failed)
      · intro refusedBefore error' after' failure
        rw [failed] at failure
        cases failure
        exact buffered.trans (unchanged.mpr (refusedBefore error changes rfl))
  | ok progressed =>
      rw [made] at describes
      obtain ⟨⟨result, succeeded⟩, _⟩ := describes
      constructor
      · intro _ _ _ isRefused
        cases isRefused
      · intro _ error after failure
        rw [succeeded] at failure
        cases failure

end Progress

end SlateOrm
