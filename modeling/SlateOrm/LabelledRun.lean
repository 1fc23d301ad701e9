import Mathlib.Data.List.Basic

namespace SlateOrm

/-!
# Runs of labelled steps

A run takes one labelled step after another.  What a run does is said here of
its splits: the state between a prefix of its labels and the rest.  A property
that every step keeps holds to the end of every run, and a property that some
steps lose is kept by exactly the runs that avoid those steps.
-/

/-- The states that a list of labels leads to. -/
inductive LabelledRun
    {State Label : Type}
    (step : State → Label → Option State) :
    State → List Label → State → Prop where
  | nil (state : State) : LabelledRun step state [] state
  | cons {first middle last : State} {label : Label} {labels : List Label}
      (stepped : step first label = some middle)
      (rest : LabelledRun step middle labels last) :
      LabelledRun step first (label :: labels) last

namespace LabelledRun

variable
  {State Label : Type}
  {step : State → Label → Option State}
  {first last : State}

variable {front rest : List Label} {middle : State} {labels : List Label}
  {condition : State → Label → Prop} {holds : State → Prop}

/-- Runs that meet make one run. -/
theorem append
    (before : LabelledRun step first front middle)
    (after : LabelledRun step middle rest last) :
    LabelledRun step first (front ++ rest) last := by
  induction before with
  | nil _ => exact after
  | cons stepped _ ih => exact cons stepped (ih after)

/-- A run over two lists of labels passes through a state between them. -/
theorem split
    (run : LabelledRun step first (front ++ rest) last) :
    ∃ middle, LabelledRun step first front middle ∧
        LabelledRun step middle rest last := by
  induction front generalizing first with
  | nil => exact ⟨first, nil first, run⟩
  | cons label front ih =>
      cases run with
      | cons stepped after =>
          obtain ⟨middle, before, rest⟩ := ih after
          exact ⟨middle, cons stepped before, rest⟩

/-- The labels of a run decide where it ends. -/
theorem functional
    {other : State} (run : LabelledRun step first labels last)
    (again : LabelledRun step first labels other) :
    last = other := by
  induction run with
  | nil _ =>
      cases again
      rfl
  | cons stepped _ ih =>
      cases again with
      | cons steppedAgain rest =>
          rw [stepped] at steppedAgain
          cases steppedAgain
          exact ih rest

/-- Labels that can be taken one after another make a run. -/
theorem of_foldlM
    (taken : labels.foldlM step first = some last) :
    LabelledRun step first labels last := by
  induction labels generalizing first with
  | nil =>
      cases taken
      exact nil _
  | cons label labels ih =>
      rw [List.foldlM_cons] at taken
      obtain ⟨middle, stepped, rest⟩ := Option.bind_eq_some_iff.mp taken
      exact cons stepped (ih rest)

/-- A run takes its labels one after another. -/
theorem foldlM_eq
    (run : LabelledRun step first labels last) :
    labels.foldlM step first = some last := by
  induction run with
  | nil _ => rfl
  | cons stepped _ ih =>
      rw [List.foldlM_cons, stepped]
      exact ih

/-- What every step with a label of a run keeps holds at its end. -/
theorem invariant_of_labels
    (holds : State → Prop)
    (keeps : ∀ label ∈ labels, ∀ state next,
      step state label = some next → holds state → holds next)
    (run : LabelledRun step first labels last) (initially : holds first) :
    holds last := by
  induction run with
  | nil _ => exact initially
  | cons stepped _ ih =>
      obtain ⟨here, others⟩ := List.forall_mem_cons.mp keeps
      exact ih others (here _ _ stepped initially)

/-- What every step keeps holds at the end of every run. -/
theorem invariant
    (holds : State → Prop)
    (keeps : ∀ state label next,
      step state label = some next → holds state → holds next)
    (run : LabelledRun step first labels last) (initially : holds first) :
    holds last :=
  run.invariant_of_labels holds
    (fun label _ state next => keeps state label next) initially

/-- Every step of a run meets a condition on its state and its label. -/
def Along (step : State → Label → Option State) (condition : State → Label → Prop)
    (first : State)
    (labels : List Label) : Prop :=
  ∀ front label rest state, labels = front ++ label :: rest →
      LabelledRun step first front state → condition state label

/-- Once a state of a run has a property, every later state of it has. -/
def Persists (step : State → Label → Option State) (holds : State → Prop)
    (first : State)
    (labels : List Label) : Prop :=
  ∀ front between rest state later, labels = front ++ between ++ rest →
      LabelledRun step first front state →
        LabelledRun step state between later → holds state → holds later

/-- What is met along a run is met from each of its states on. -/
theorem Along.later
    {state : State} {labels front rest : List Label}
    (along : Along step condition first labels)
    (parts : labels = front ++ rest)
    (before : LabelledRun step first front state) :
    Along step condition state rest := by
  intro between label after middle inner run
  refine along (front ++ between) label after middle ?_ (before.append run)
  rw [parts, inner, List.append_assoc]

/-- What is met along a run is met up to each of its states. -/
theorem Along.earlier
    {labels front rest : List Label} (along : Along step condition first labels)
    (parts : labels = front ++ rest) :
    Along step condition first front := by
  intro before label after middle inner run
  refine along before label (after ++ rest) middle ?_ run
  rw [parts, inner]
  simp

/-- A run without steps meets every condition. -/
theorem along_nil
    (condition : State → Label → Prop) :
    Along step condition first [] := by
  intro front label rest state parts
  simp at parts

/-- A condition is met at the first step and along the run after it. -/
theorem along_cons
    {label : Label}
    (stepped : step first label = some middle) :
    Along step condition first (label :: labels) ↔
      condition first label ∧ Along step condition middle labels := by
  constructor
  · intro along
    refine ⟨along [] label labels first rfl (nil first), ?_⟩
    exact along.later (List.singleton_append).symm (cons stepped (nil middle))
  · rintro ⟨allowed, onward⟩ front next rest state parts before
    cases before with
    | nil _ =>
        cases parts
        exact allowed
    | cons steppedAgain before =>
        rw [List.cons_append, List.cons.injEq] at parts
        obtain ⟨rfl, parts⟩ := parts
        rw [stepped] at steppedAgain
        cases steppedAgain
        exact onward _ next rest state parts before

/-- A condition that each prefix of a run meets is met along it. -/
theorem along_of_taken
    (met : ∀ count label, labels[count]? = some label →
      ∀ state ∈ (labels.take count).foldlM step first, condition state label) :
    Along step condition first labels := by
  rintro front label rest state rfl run
  refine met front.length label ?_ state ?_
  · rw [List.getElem?_append_right (Nat.le_refl _), Nat.sub_self]
    rfl
  · rw [List.take_left]
    exact run.foldlM_eq

/-- A condition met along both parts of a run is met along all of it. -/
theorem Along.append
    (along : Along step condition first front)
    (before : LabelledRun step first front middle)
    (onward : Along step condition middle rest) :
    Along step condition first (front ++ rest) := by
  induction before with
  | nil _ => exact onward
  | cons stepped _ ih =>
      obtain ⟨allowed, later⟩ := (along_cons stepped).mp along
      exact (along_cons stepped).mpr ⟨allowed, ih later onward⟩

/-- What the steps that meet a condition keep holds after a run of them. -/
theorem holds_of_along
    (keeps : ∀ state label next,
      step state label = some next → holds state → condition state label → holds next)
    (run : LabelledRun step first labels last)
    (along : Along step condition first labels) (initially : holds first) :
    holds last := by
  induction run with
  | nil _ => exact initially
  | cons stepped _ ih =>
      obtain ⟨allowed, onward⟩ := (along_cons stepped).mp along
      exact ih onward (keeps _ _ _ stepped initially allowed)

/-- A property persists exactly along the runs that take no step which loses it. -/
theorem persists_iff
    {loses : State → Label → Prop}
    (kept : ∀ state label next, step state label = some next → holds state →
        (holds next ↔ ¬loses state label))
    (run : LabelledRun step first labels last) :
    Persists step holds first labels ↔
      Along step (fun state label => holds state → ¬loses state label)
        first labels := by
  constructor
  · intro persists front label rest state parts before held
    rw [parts] at run
    obtain ⟨reached, reaching, onward⟩ := run.split
    obtain rfl : reached = state := reaching.functional before
    cases onward with
    | @cons _ next _ _ _ stepped _ =>
        have one : LabelledRun step reached [label] next := cons stepped (nil next)
        have heldAfter : holds next :=
          persists front [label] rest reached next (by simpa using parts)
            before one held
        exact (kept reached label next stepped held).mp heldAfter
  · intro along front between rest state later parts before run held
    have inner : Along step (fun state label => holds state → ¬loses state label)
          state between := by
      refine Along.later ?_ rfl before
      exact along.earlier (by simpa using parts)
    refine run.holds_of_along ?_ inner held
    intro state label next stepped held allowed
    exact (kept state label next stepped held).mpr (allowed held)

end LabelledRun

end SlateOrm
