import Mathlib.Data.List.Forall2

namespace SlateOrm

/-!
# Three-valued logic

A truth that may not be known is one that different completions give different
answers for.  A connective is known where all completions of its arguments, each
on its own, agree, which gives Kleene's strong tables.
-/

namespace ThreeValued

/-- The truths that a truth may turn out to be. -/
def completions : Option Bool → List Bool
  | some truth => [truth]
  | none => [true, false]

/-- The truth that all of some truths are. -/
def agreed : List Bool → Option Bool
  | [] => none
  | truth :: rest => if rest.all (· == truth) then some truth else none

/-- A connective, of truths that may not be known. -/
def lift (connective : Bool → Bool → Bool) (first second : Option Bool) : Option Bool :=
  agreed ((completions first).flatMap (fun truth =>
    (completions second).map (connective truth)))

def neg (truth : Option Bool) : Option Bool :=
  agreed ((completions truth).map (fun known => !known))

def conj : Option Bool → Option Bool → Option Bool := lift (· && ·)

def disj : Option Bool → Option Bool → Option Bool := lift (· || ·)

/-- The conjunction of some truths. -/
def all (truths : List (Option Bool)) : Option Bool := truths.foldr conj (some true)

/-- The disjunction of some truths. -/
def any (truths : List (Option Bool)) : Option Bool := truths.foldr disj (some false)

/-! ## Connectives -/

section

variable (first second third : Option Bool)

@[simp] theorem conj_true :
    conj first (some true) = first := by
  rcases first with _ | _ | _ <;> rfl

@[simp] theorem true_conj :
    conj (some true) first = first := by
  rcases first with _ | _ | _ <;> rfl

@[simp] theorem conj_false :
    conj first (some false) = some false := by
  rcases first with _ | _ | _ <;> rfl

@[simp] theorem false_conj :
    conj (some false) first = some false := by
  rcases first with _ | _ | _ <;> rfl

@[simp] theorem disj_true :
    disj first (some true) = some true := by
  rcases first with _ | _ | _ <;> rfl

@[simp] theorem true_disj :
    disj (some true) first = some true := by
  rcases first with _ | _ | _ <;> rfl

@[simp] theorem disj_false :
    disj first (some false) = first := by
  rcases first with _ | _ | _ <;> rfl

@[simp] theorem false_disj :
    disj (some false) first = first := by
  rcases first with _ | _ | _ <;> rfl

@[simp] theorem conj_none :
    conj none none = none := by
  rfl

@[simp] theorem disj_none :
    disj none none = none := by
  rfl

theorem conj_comm :
    conj first second = conj second first := by
  rcases first with _ | _ | _ <;> rcases second with _ | _ | _ <;> rfl

theorem conj_assoc :
    conj (conj first second) third = conj first (conj second third) := by
  rcases first with _ | _ | _ <;> rcases second with _ | _ | _ <;>
    rcases third with _ | _ | _ <;> rfl

theorem disj_assoc :
    disj (disj first second) third = disj first (disj second third) := by
  rcases first with _ | _ | _ <;> rcases second with _ | _ | _ <;>
    rcases third with _ | _ | _ <;> rfl

end

/-! ## Lists -/

section

variable {truths : List (Option Bool)}

@[simp] theorem all_nil :
    all [] = some true := by
  rfl

@[simp] theorem all_cons
    (truth : Option Bool) :
    all (truth :: truths) = conj truth (all truths) := by
  rfl

@[simp] theorem any_nil :
    any [] = some false := by
  rfl

@[simp] theorem any_cons
    (truth : Option Bool) :
    any (truth :: truths) = disj truth (any truths) := by
  rfl

theorem all_append
    (others : List (Option Bool)) :
    all (truths ++ others) = conj (all truths) (all others) := by
  induction truths with
  | nil => simp
  | cons truth rest ih => simp [ih, conj_assoc]

theorem any_unknown
    (nonempty : truths ≠ [])
    (unknown : ∀ truth ∈ truths, truth = none) :
    any truths = none := by
  induction truths with
  | nil => exact absurd rfl nonempty
  | cons truth rest ih =>
      obtain rfl := unknown truth (List.mem_cons_self ..)
      cases rest with
      | nil => rfl
      | cons next rest =>
          rw [any_cons, ih (List.cons_ne_nil _ _)
            (fun truth member => unknown truth (.tail _ member)), disj_none]

/--
A disjunction is true where one truth is, else not known where one truth is
not known, and else false.
-/
theorem any_eq :
    any truths =
      if some true ∈ truths then some true
      else if none ∈ truths then none
      else some false := by
  induction truths with
  | nil => rfl
  | cons truth rest ih =>
      simp only [any_cons, ih, List.mem_cons]
      by_cases isTrue : some true ∈ rest <;>
        by_cases isUnknown : none ∈ rest <;>
          rcases truth with _ | _ | _ <;> simp [isTrue, isUnknown]

end

/-! ## What more is known -/

/-- A truth that is known stays as it is known. -/
def Settles (first second : Option Bool) : Prop :=
  ∀ truth, first = some truth → second = some truth

theorem Settles.refl
    (truth : Option Bool) :
    Settles truth truth :=
  fun _ known => known

theorem Settles.none
    (truth : Option Bool) :
    Settles none truth :=
  nofun

theorem Settles.neg
    {first second : Option Bool} (settles : Settles first second) :
    Settles (neg first) (neg second) := by
  cases first with
  | none => exact .none _
  | some truth =>
      rw [settles truth rfl]
      exact .refl _

section

variable {first second third fourth : Option Bool}

theorem Settles.conj
    (settles : Settles first second) (settles' : Settles third fourth) :
    Settles (conj first third) (conj second fourth) := by
  rcases first with _ | _ | _
  · rcases third with _ | _ | _
    · exact .none _
    · rw [settles' false rfl, conj_false, conj_false]
      exact .refl _
    · rw [conj_true]
      exact .none _
  · rw [settles false rfl, false_conj, false_conj]
    exact .refl _
  · rw [settles true rfl, true_conj, true_conj]
    exact settles'

theorem Settles.disj
    (settles : Settles first second) (settles' : Settles third fourth) :
    Settles (disj first third) (disj second fourth) := by
  rcases first with _ | _ | _
  · rcases third with _ | _ | _
    · exact .none _
    · rw [disj_false]
      exact .none _
    · rw [settles' true rfl, disj_true, disj_true]
      exact .refl _
  · rw [settles false rfl, false_disj, false_disj]
    exact settles'
  · rw [settles true rfl, true_disj, true_disj]
    exact .refl _

end

theorem Settles.all
    {firsts seconds : List (Option Bool)}
    (each : List.Forall₂ Settles firsts seconds) :
    Settles (all firsts) (all seconds) := by
  induction each with
  | nil => exact .refl _
  | cons settles _ ih => exact settles.conj ih

theorem Settles.any
    {firsts seconds : List (Option Bool)}
    (each : List.Forall₂ Settles firsts seconds) :
    Settles (any firsts) (any seconds) := by
  induction each with
  | nil => exact .refl _
  | cons settles _ ih => exact settles.disj ih

end ThreeValued

end SlateOrm
