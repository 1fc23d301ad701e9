import Mathlib.Data.List.Perm.Basic

namespace SlateOrm

open List

/-!
# Semijoins

A semijoin keeps the items of a list that some item of another list is related
to.  A chain of them goes from list to list.  When two relations are compared,
chains over them hold the same items exactly when, from what the one of them
has reached, each next step keeps the same items by both.
-/

section

variable {α γ : Type}

/-! ## Items that look the same -/

/-- Lists whose items look the same, in some order. -/
def Alike (look : α → γ) (first second : List α) : Prop :=
  (first.map look).Perm (second.map look)

/-- A test that has one outcome for items that look the same. -/
def LooksOnly (look : α → γ) (test : α → Bool) : Prop :=
  ∀ first second, look first = look second → test first = test second

variable
  {look : α → γ}
  {test other : α → Bool}
  {first second third : List α}

theorem Alike.refl
    (look : α → γ) (items : List α) :
    Alike look items items :=
  List.Perm.refl _

theorem Alike.symm
    (alike : Alike look first second) :
    Alike look second first :=
  List.Perm.symm alike

theorem Alike.trans
    (alike : Alike look first second) (alike' : Alike look second third) :
    Alike look first third :=
  List.Perm.trans alike alike'

/-- A test that looks at nothing else is one of what is looked at. -/
theorem LooksOnly.exists_test
    (looks : LooksOnly look test) :
    ∃ tested : γ → Bool, ∀ item, test item = tested (look item) := by
  classical
  refine ⟨fun seen => decide (∃ item, look item = seen ∧ test item = true),
    fun item => ?_⟩
  rw [Bool.eq_iff_iff, decide_eq_true_iff]
  constructor
  · exact fun passes => ⟨item, rfl, passes⟩
  · rintro ⟨witness, same, passes⟩
    rw [← looks witness item same, passes]

/-- Alike lists meet the same tests. -/
theorem Alike.any_eq
    (alike : Alike look first second) (looks : LooksOnly look test) :
    first.any test = second.any test := by
  obtain ⟨tested, isTest⟩ := looks.exists_test
  have seen : ∀ items : List α, items.any test = (items.map look).any tested := by
    intro items
    rw [any_map]
    exact congrArg items.any (funext isTest)
  rw [seen, seen]
  exact List.Perm.any_eq alike

/-- Two tests select alike parts of a list exactly when they agree on it. -/
theorem alike_filter_iff
    {items : List α} (looks : LooksOnly look test)
    (looks' : LooksOnly look other) :
    Alike look (items.filter test) (items.filter other) ↔
      ∀ item ∈ items, test item = other item := by
  constructor
  · intro alike item member
    have passes : ∀ {one another : α → Bool}, LooksOnly look another →
        Alike look (items.filter one) (items.filter another) →
          one item = true → another item = true := by
      intro one another looks alike isKept
      have isSeen := alike.subset (mem_map_of_mem (mem_filter.mpr ⟨member, isKept⟩))
      obtain ⟨found, isFound, same⟩ := mem_map.mp isSeen
      rw [← looks found item same]
      exact (mem_filter.mp isFound).2
    exact Bool.eq_iff_iff.mpr ⟨passes looks' alike, passes looks alike.symm⟩
  · intro agree
    rw [filter_congr agree]
    exact Alike.refl look _

theorem any_eq_of_forall_mem
    {items : List α}
    (agree : ∀ item ∈ items, test item = other item) :
    items.any test = items.any other := by
  rw [Bool.eq_iff_iff, any_eq_true, any_eq_true]
  refine exists_congr fun item => and_congr_right fun member => ?_
  rw [agree item member]

theorem any_and_right
    {items : List α} {besides : Bool} :
    items.any (fun item => test item && besides) = (items.any test && besides) := by
  cases besides <;> simp

theorem any_of_any_and
    {items : List α}
    (both : items.any (fun item => test item && other item) = true) :
    items.any test = true := by
  simp only [any_eq_true, Bool.and_eq_true] at both ⊢
  obtain ⟨item, member, passes, _⟩ := both
  exact ⟨item, member, passes⟩

/-! ## Chains -/

/-- The items of a list that some item of another is related to. -/
def semijoin (related : α → α → Bool) (before items : List α) : List α :=
  items.filter (fun item => before.any (fun source => related source item))

/-- A relation that only looks at both items. -/
structure LooksAtBoth (look : α → γ) (related : α → α → Bool) : Prop where
  source : ∀ item, LooksOnly look (fun source => related source item)
  item : ∀ source, LooksOnly look (related source)

theorem LooksAtBoth.looksOnly_any
    {related : α → α → Bool} (looks : LooksAtBoth look related)
    (before : List α) :
    LooksOnly look (fun item => before.any (fun source => related source item)) :=
  fun item item' same => congrArg before.any
    (funext fun source => looks.item source item item' same)

/-- A semijoin depends on what its sources look like. -/
theorem LooksAtBoth.semijoin_congr
    {related : α → α → Bool} (looks : LooksAtBoth look related)
    (alike : Alike look first second) (items : List α) :
    semijoin related first items = semijoin related second items :=
  filter_congr fun item _ => alike.any_eq (looks.source item)

/-- A list to go to, and two relations to go there by. -/
structure Hop (α : Type) where
  items : List α
  compared : α → α → Bool
  linked : α → α → Bool

namespace Hop

/-- The relations of a hop only look. -/
structure Looks (look : α → γ) (hop : Hop α) : Prop where
  compared : LooksAtBoth look hop.compared
  linked : LooksAtBoth look hop.linked

/-- What is found from some items. -/
def found (hop : Hop α) (before : List α) : List α :=
  semijoin hop.compared before hop.items

/-- What the links from some items lead to. -/
def reached (hop : Hop α) (before : List α) : List α :=
  semijoin hop.linked before hop.items

/-- From some items, what is found is what the links lead to. -/
def Agrees (hop : Hop α) (before : List α) : Prop := ∀ item ∈ hop.items,
    before.any (fun source => hop.compared source item) =
      before.any (fun source => hop.linked source item)

/-- Each list is found from the one before it. -/
def FoundFrom (look : α → γ) : List α → List (Hop α × List α) → Prop
  | _, [] => True
  | before, (hop, level) :: rest =>
      Alike look level (hop.found before) ∧ FoundFrom look level rest

/-- Each list holds exactly what the links from the one before it lead to. -/
def LinkedFrom (look : α → γ) : List α → List (Hop α × List α) → Prop
  | _, [] => True
  | before, (hop, level) :: rest =>
      Alike look level (hop.reached before) ∧ LinkedFrom look level rest

/-- From what the links have reached, the hops always find what these lead
to. -/
def AgreeFrom : List α → List (Hop α) → Prop
  | _, [] => True
  | before, hop :: rest => hop.Agrees before ∧ AgreeFrom (hop.reached before) rest

/-- Every level is linked exactly when the hops agree from the first level on. -/
theorem linkedFrom_iff_agreeFrom
    {levels : List (Hop α × List α)}
    (looks : ∀ step ∈ levels, step.1.Looks look)
    {before reached : List α} (alike : Alike look before reached)
    (found : FoundFrom look before levels) :
    LinkedFrom look before levels ↔ AgreeFrom reached (levels.map Prod.fst) := by
  induction levels generalizing before reached with
  | nil => exact Iff.rfl
  | cons step rest ih =>
      obtain ⟨hop, level⟩ := step
      have ⟨here, others⟩ := forall_mem_cons.mp looks
      obtain ⟨isFound, foundRest⟩ := found
      have agrees_iff : Alike look level (hop.reached before) ↔ hop.Agrees reached := by
        have isFound' : Alike look level (hop.found reached) := by
          rwa [Hop.found, ← here.compared.semijoin_congr alike]
        rw [Hop.reached, here.linked.semijoin_congr alike, Agrees, ← alike_filter_iff
          (here.compared.looksOnly_any reached) (here.linked.looksOnly_any reached)]
        exact ⟨isFound'.symm.trans, isFound'.trans⟩
      rw [LinkedFrom, map_cons, AgreeFrom, agrees_iff]
      refine and_congr_right fun agrees => ?_
      have isReached : Alike look level (hop.reached reached) := by
        rw [Hop.reached, ← here.linked.semijoin_congr alike]
        exact agrees_iff.mpr agrees
      exact ih others isReached foundRest

end Hop

end

end SlateOrm
