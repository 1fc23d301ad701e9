import Mathlib.Data.Multiset.Bind

namespace OuterJoin

open List

/-!
# Outer joins of lists

A join has every pair of items that agree, and something for each item of
either list that is in no pair.  It may be made by streaming either list past
the other, and what is in no pair may be looked for key by key.
-/

variable {α β γ κ : Type}

/-- What two lists are joined to. -/
def joined (agree : α → β → Bool) (both : α → β → γ) (first : α → List γ)
    (second : β → List γ) (lefts : List α) (rights : List β) : List γ :=
  lefts.flatMap (fun left => (rights.filter (agree left)).map (both left)) ++
    ((lefts.filter (fun left => !rights.any (agree left))).flatMap first ++
      (rights.filter (fun right =>
        !lefts.any (fun left => agree left right))).flatMap second)

theorem map_filter_eq_flatMap
    (keep : β → Bool) (change : β → γ) (items : List β) :
    (items.filter keep).map change =
      items.flatMap (fun item => if keep item then [change item] else []) := by
  induction items with
  | nil => rfl
  | cons item rest ih =>
      rw [filter_cons, flatMap_cons, ← ih]
      split <;> rfl

theorem flatMap_filter
    (keep : β → Bool) (change : β → List γ) (items : List β) :
    (items.filter keep).flatMap change =
      items.flatMap (fun item => if keep item then change item else []) := by
  induction items with
  | nil => rfl
  | cons item rest ih =>
      rw [filter_cons, flatMap_cons, ← ih]
      split <;> rfl

theorem map_fst_filter_zipIdx
    (keep : α → Bool) (items : List α) :
    (items.zipIdx.filter (fun entry => keep entry.1)).map Prod.fst =
      items.filter keep := by
  rw [← zipIdx_map_fst 0 items, filter_map, zipIdx_map_fst]
  rfl

/-- Pairs give the same, in some order, whichever list is gone through. -/
theorem flatMap_swap
    (give : α → β → List γ) (lefts : List α) (rights : List β) :
    (lefts.flatMap (fun left => rights.flatMap (give left))).Perm
      (rights.flatMap (fun right =>
        lefts.flatMap (fun left => give left right))) := by
  refine Multiset.coe_eq_coe.mp ?_
  simp only [← Multiset.coe_bind]
  exact Multiset.bind_bind _ _

theorem pairs_swap
    (agree : α → β → Bool) (both : α → β → γ) (lefts : List α)
    (rights : List β) :
    (lefts.flatMap (fun left => (rights.filter (agree left)).map (both left))).Perm
      (rights.flatMap (fun right =>
        (lefts.filter (fun left => agree left right)).map
          (fun left => both left right))) := by
  simp only [map_filter_eq_flatMap]
  exact flatMap_swap _ lefts rights

variable
  {agree : α → β → Bool}
  {both : α → β → γ}
  {first : α → List γ}
  {second : β → List γ}
  {lefts lefts' : List α}
  {rights : List β}

/-- A join is the same from its other side. -/
theorem joined_swap :
    (joined agree both first second lefts rights).Perm
      (joined (fun right left => agree left right)
        (fun right left => both left right) second first rights lefts) :=
  (pairs_swap agree both lefts rights).append perm_append_comm

/-- Each item of a list may be joined, or kept alone, as it comes. -/
theorem streamed_perm :
    (lefts.flatMap (fun left =>
        if (rights.filter (agree left)).isEmpty then
          first left
        else
          (rights.filter (agree left)).map (both left)) ++
      (rights.filter (fun right =>
        !lefts.any (fun left => agree left right))).flatMap second).Perm
      (joined agree both first second lefts rights) := by
  have shown : ∀ left, (if (rights.filter (agree left)).isEmpty then
        first left
      else
        (rights.filter (agree left)).map (both left)) =
      (rights.filter (agree left)).map (both left) ++
        if !rights.any (agree left) then first left else [] := by
    intro left
    have isEmpty : (rights.filter (agree left)).isEmpty = !rights.any (agree left) := by
      rw [Bool.eq_iff_iff]
      simp
    rw [isEmpty]
    cases isAlone : !rights.any (agree left) with
    | false => simp
    | true =>
        rw [isEmpty_iff.mp (isEmpty.trans isAlone)]
        rfl
  simp only [shown]
  rw [joined, ← append_assoc, flatMap_filter _ first]
  exact (flatMap_append_perm ..).symm.append_right _

/-- A join does not depend on the order of what is joined. -/
theorem joined_perm
    (perm : lefts.Perm lefts') :
    (joined agree both first second lefts rights).Perm
      (joined agree both first second lefts' rights) := by
  have sameAlone : rights.filter (fun right =>
        !lefts.any (fun left => agree left right)) =
      rights.filter (fun right => !lefts'.any (fun left => agree left right)) :=
    filter_congr (fun right _ => congrArg not perm.any_eq)
  rw [joined, joined, sameAlone]
  exact (perm.flatMap_right _).append (((perm.filter _).flatMap_right _).append_right _)

/-- What is kept of a list may be looked for key by key. -/
theorem flatMap_byKey_perm
    [BEq κ] [LawfulBEq κ] {key : β → Option κ} {keys : List κ}
    (nodup : keys.Nodup)
    (complete : ∀ item ∈ rights, ∀ found, key item = some found → found ∈ keys)
    (keep : β → Bool) :
    (rights.filter (fun item => (key item).isNone && keep item) ++
      keys.flatMap (fun found => rights.filter (fun item =>
        key item == some found && keep item))).Perm
      (rights.filter keep) := by
  have once : ∀ item ∈ rights, (keys.filter (fun found =>
      key item == some found && keep item)).map (fun _ => item) =
        if (key item).isSome && keep item then [item] else [] := by
    intro item member
    cases isKey : key item with
    | none => simp
    | some wanted =>
        have isListed := complete item member wanted isKey
        cases keep item with
        | false => simp
        | true =>
            have alone : keys.filter (fun found => wanted == found) = [wanted] := by
              simp only [@BEq.comm _ _ _ wanted]
              rw [filter_beq, nodup.count, if_pos isListed]
              rfl
            simp [alone]
  have swapped := pairs_swap (fun found item =>
    key item == some found && keep item) (fun _ item => item) keys rights
  simp only [map_id'] at swapped
  rw [flatMap_congr once, ← map_filter_eq_flatMap, map_id'] at swapped
  have parts := filter_append_perm (fun item => (key item).isNone) (rights.filter keep)
  simp only [filter_filter, Option.not_isNone] at parts
  exact (swapped.append_left _).trans parts

end OuterJoin
