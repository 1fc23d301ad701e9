import Mathlib.Data.List.Sort
import Mathlib.Order.Compare

namespace SlateOrm

open List

/-!
# Slices

Sorted sequences as the standard library handles them: equal neighbours are
removed and an element is found by bisection.  Of a sorted sequence, the first
leaves every element once and the second finds one exactly if it is there.
-/

/-- Remove the elements that equal the one kept before them. -/
def dedupAfter {α : Type} [BEq α] (kept : α) : List α → List α
  | [] => []
  | value :: rest =>
      if value == kept then
        dedupAfter kept rest
      else
        value :: dedupAfter value rest

/-- Remove all but the first of consecutive equal elements. -/
def dedup {α : Type} [BEq α] : List α → List α
  | [] => []
  | value :: rest => value :: dedupAfter value rest

/-- The loop of a binary search, from a base over a number of elements. -/
def binarySearchFrom {α : Type} (compareTo : α → Ordering)
    (values : List α) : Nat → Nat → Nat → Nat
  | 0, base, _ => base
  | fuel + 1, base, size =>
      if size ≤ 1 then
        base
      else
        let half := size / 2
        let middle := base + half
        let isGreater : Bool :=
          match values[middle]? with
          | some value => compareTo value == .gt
          | none => false
        binarySearchFrom compareTo values fuel
          (if isGreater then base else middle) (size - half)

/-- Where a value is, or where it would be inserted. -/
def binarySearchBy {α : Type} (compareTo : α → Ordering)
    (values : List α) : Except Nat Nat :=
  if values.isEmpty then
    .error 0
  else
    let base := binarySearchFrom compareTo values values.length 0 values.length
    match values[base]?.map compareTo with
    | some .eq => .ok base
    | some .lt => .error (base + 1)
    | _ => .error base

/-! ## Removing equal neighbours -/

theorem exists_mem_dedupAfter
    {α : Type} [BEq α] {kept value : α} {values : List α}
    (member : value ∈ values) :
    (value == kept) = true ∨ ∃ other ∈ dedupAfter kept values,
        value = other ∨ (value == other) = true := by
  induction values generalizing kept with
  | nil => cases member
  | cons first rest ih =>
      rw [dedupAfter]
      split
      · next removed =>
          rcases mem_cons.mp member with rfl | inRest
          · exact Or.inl removed
          · exact ih inRest
      · rcases mem_cons.mp member with rfl | inRest
        · exact Or.inr ⟨value, mem_cons_self .., Or.inl rfl⟩
        · rcases @ih first inRest with
            equal | ⟨other, isKept, equal⟩
          · exact Or.inr ⟨first, mem_cons_self .., Or.inr equal⟩
          · exact Or.inr ⟨other, mem_cons_of_mem _ isKept, equal⟩

theorem exists_mem_dedup
    {α : Type} [BEq α] {value : α} {values : List α}
    (member : value ∈ values) :
    ∃ other ∈ dedup values, value = other ∨ (value == other) = true := by
  cases values with
  | nil => cases member
  | cons first rest =>
      rcases mem_cons.mp member with rfl | inRest
      · exact ⟨value, mem_cons_self .., Or.inl rfl⟩
      · rcases exists_mem_dedupAfter inRest with
          equal | ⟨other, isKept, equal⟩
        · exact ⟨first, mem_cons_self .., Or.inr equal⟩
        · exact ⟨other, mem_cons_of_mem _ isKept, equal⟩

theorem dedupAfter_sublist
    {α : Type} [BEq α] (kept : α) (values : List α) :
    (dedupAfter kept values).Sublist values := by
  induction values generalizing kept with
  | nil => exact .slnil
  | cons first rest ih =>
      rw [dedupAfter]
      split
      · exact (ih kept).cons first
      · exact (ih first).cons_cons first

theorem dedup_sublist
    {α : Type} [BEq α] (values : List α) :
    (dedup values).Sublist values := by
  cases values with
  | nil => exact .slnil
  | cons first rest => exact (dedupAfter_sublist first rest).cons_cons first

theorem mem_of_mem_dedup
    {α : Type} [BEq α] {value : α} {values : List α}
    (member : value ∈ dedup values) :
    value ∈ values :=
  (dedup_sublist values).subset member

section

variable
  {α : Type}
  {order : α → α → Ordering}

/-- No element comes after one that is greater. -/
def SortedBy (order : α → α → Ordering) (values : List α) : Prop :=
  values.Pairwise (fun first second => order first second ≠ .gt)

/-- Every element is less than those after it. -/
def StrictlySortedBy (order : α → α → Ordering) (values : List α) : Prop :=
  values.Pairwise (fun first second => order first second = .lt)

variable [Std.TransCmp order]

theorem sortedBy_insertionSort
    (values : List α) :
    SortedBy order
      (values.insertionSort (fun first second => order first second ≠ .gt)) := by
  have : Std.Total (fun first second => order first second ≠ .gt) := by
    refine ⟨fun first second => ?_⟩
    by_cases isGreater : order first second = .gt
    · refine Or.inr ?_
      rw [Std.OrientedCmp.lt_of_gt isGreater]
      exact Ordering.noConfusion
    · exact Or.inl isGreater
  have : IsTrans α (fun first second => order first second ≠ .gt) := by
    refine ⟨fun first second third before after => ?_⟩
    exact Ordering.isLE_iff_ne_gt.mp (Std.TransCmp.isLE_trans
      (Ordering.isLE_iff_ne_gt.mpr before) (Ordering.isLE_iff_ne_gt.mpr after))
  exact pairwise_insertionSort _ values

variable [BEq α]

section

variable
  (equal : ∀ first second : α, (first == second) = true ↔ order first second = .eq)

include equal

/-- Of sorted elements, those after the one kept are greater than it. -/
theorem strictlySortedBy_dedupAfter
    {kept : α} {values : List α} (sorted : SortedBy order (kept :: values)) :
    StrictlySortedBy order (kept :: dedupAfter kept values) := by
  induction values generalizing kept with
  | nil => exact pairwise_singleton ..
  | cons first rest ih =>
      obtain ⟨afterKept, sortedRest⟩ := pairwise_cons.mp sorted
      rw [dedupAfter]
      split
      · refine ih (pairwise_cons.mpr ⟨?_, ?_⟩)
        · exact fun value member => afterKept value (mem_cons_of_mem _ member)
        · exact (pairwise_cons.mp sortedRest).2
      · next different =>
          have strict := ih sortedRest
          have less : order kept first = .lt := by
            have notGreater := afterKept first (mem_cons_self ..)
            have notEqual : order first kept ≠ .eq :=
              fun isEqual => different ((equal first kept).mpr isEqual)
            cases isOrder : order kept first with
            | lt => rfl
            | eq => exact absurd (Std.OrientedCmp.eq_symm isOrder) notEqual
            | gt => exact absurd isOrder notGreater
          refine pairwise_cons.mpr ⟨?_, strict⟩
          intro value member
          rcases mem_cons.mp member with rfl | inRest
          · exact less
          · exact Std.TransCmp.lt_trans less ((pairwise_cons.mp strict).1 value inRest)

theorem strictlySortedBy_dedup
    {values : List α} (sorted : SortedBy order values) :
    StrictlySortedBy order (dedup values) := by
  cases values with
  | nil => exact List.Pairwise.nil
  | cons first rest => exact strictlySortedBy_dedupAfter equal sorted

end

end

/-! ## Bisection -/

section

variable
  {α : Type}
  {compareTo : α → Ordering}
  {values : List α}

/-- Elements are less than what is looked for up to some place, greater after. -/
def Bisects (compareTo : α → Ordering) (values : List α) : Prop :=
  values.Pairwise (fun first second =>
    (compareTo first = .gt → compareTo second = .gt) ∧
      (compareTo first = .eq → compareTo second ≠ .lt))

/-- What the loop of a bisection has found out. -/
structure Narrowed (compareTo : α → Ordering) (values : List α)
    (base size : Nat) : Prop where
  inside : base + size ≤ values.length
  nonempty : 1 ≤ size
  /-- What is looked for is not before the base, unless it is at the base too. -/
  lower : base = 0 ∨ ∃ value, values[base]? = some value ∧ compareTo value ≠ .gt
  upper : ∀ place value, base + size ≤ place → values[place]? = some value →
    compareTo value = .gt

/-- The loop of a bisection ends at one place. -/
theorem narrowed_binarySearchFrom
    (bisects : Bisects compareTo values) {fuel base size : Nat}
    (enough : size ≤ fuel)
    (narrowed : Narrowed compareTo values base size) :
    Narrowed compareTo values (binarySearchFrom compareTo values fuel base size) 1 := by
  induction fuel generalizing base size with
  | zero =>
      have := narrowed.nonempty
      omega
  | succ fuel ih =>
      obtain ⟨inside, nonempty, lower, upper⟩ := narrowed
      rw [binarySearchFrom]
      split
      · next small =>
          obtain rfl : size = 1 := by omega
          exact ⟨inside, nonempty, lower, upper⟩
      · next large =>
          have inRange : base + size / 2 < values.length := by omega
          dsimp only
          rw [getElem?_eq_getElem inRange]
          dsimp only
          refine ih (by omega) ?_
          by_cases isGreater : compareTo values[base + size / 2] = .gt
          · rw [if_pos (by simpa using isGreater)]
            refine ⟨by omega, by omega, lower, ?_⟩
            intro place value isAfter found
            obtain ⟨inValues, rfl⟩ := List.getElem?_eq_some_iff.mp found
            rcases Nat.lt_or_eq_of_le
              (show base + size / 2 ≤ place by omega) with later | rfl
            · exact (pairwise_iff_getElem.mp bisects _ _ inRange inValues
                later).1 isGreater
            · exact isGreater
          · rw [if_neg (by simpa using isGreater)]
            refine ⟨by omega, by omega, ?_, ?_⟩
            · exact Or.inr ⟨_, getElem?_eq_getElem inRange, isGreater⟩
            · intro place value isAfter found
              exact upper place value (by omega) found

/-- A bisection finds an element exactly if it is there. -/
theorem isOk_binarySearchBy
    (bisects : Bisects compareTo values) :
    (binarySearchBy compareTo values).isOk = true ↔
      ∃ value ∈ values, compareTo value = .eq := by
  cases isValues : values with
  | nil => simp [binarySearchBy, Except.isOk, Except.toBool]
  | cons first rest =>
      rw [← isValues]
      have nonempty : values.isEmpty = false := by
        rw [isValues]
        rfl
      have start : Narrowed compareTo values 0 values.length := by
        refine ⟨by omega, by rw [isValues]; simp, Or.inl rfl, ?_⟩
        intro place value isAfter found
        have inValues := (List.getElem?_eq_some_iff.mp found).1
        omega
      have narrowed := narrowed_binarySearchFrom bisects (Nat.le_refl _) start
      rw [binarySearchBy, if_neg (by simp [nonempty])]
      dsimp only
      generalize binarySearchFrom compareTo values values.length 0
        values.length = base at narrowed
      obtain ⟨inside, -, lower, upper⟩ := narrowed
      have inRange : base < values.length := by omega
      rw [getElem?_eq_getElem inRange, Option.map_some]
      cases here : compareTo values[base] with
      | eq =>
          simp only [Except.isOk, Except.toBool, true_iff]
          exact ⟨_, getElem_mem inRange, here⟩
      | lt =>
          simp only [Except.isOk, Except.toBool, Bool.false_eq_true, false_iff]
          rintro ⟨value, member, isEqual⟩
          obtain ⟨place, inValues, rfl⟩ := mem_iff_getElem.mp member
          rcases Nat.lt_trichotomy place base with before | rfl | after
          · exact (pairwise_iff_getElem.mp bisects _ _ inValues inRange
              before).2 isEqual here
          · rw [isEqual] at here
            cases here
          · rw [upper place _ after (getElem?_eq_getElem inValues)] at isEqual
            cases isEqual
      | gt =>
          simp only [Except.isOk, Except.toBool, Bool.false_eq_true, false_iff]
          rintro ⟨value, member, isEqual⟩
          obtain ⟨place, inValues, rfl⟩ := mem_iff_getElem.mp member
          rcases Nat.lt_trichotomy place base with before | rfl | after
          · rcases lower with rfl | ⟨value, found, notGreater⟩
            · omega
            · rw [getElem?_eq_getElem inRange] at found
              cases found
              exact notGreater here
          · rw [isEqual] at here
            cases here
          · rw [upper place _ after (getElem?_eq_getElem inValues)] at isEqual
            cases isEqual

end

end SlateOrm
