import Mathlib.Data.List.Forall2
import Mathlib.Data.List.Perm.Lattice

namespace SlateOrm

open List Option

/-!
# Walks that visit what is wanted once

A walk makes a result of some of what it visits.  Two walks have the same
results, in some order, when each visits everything that the other makes a
result of, and neither visits such a thing twice.
-/

section

variable {α β γ κ : Type}

theorem exists_forall₂
    {related : α → β → Prop} {firsts : List α}
    (each : ∀ first ∈ firsts, ∃ second, related first second) :
    ∃ seconds, List.Forall₂ related firsts seconds := by
  induction firsts with
  | nil => exact ⟨[], .nil⟩
  | cons first rest ih =>
      obtain ⟨second, isRelated⟩ := each first (mem_cons_self ..)
      obtain ⟨seconds, areRelated⟩ := ih
        (fun other member => each other (mem_cons_of_mem _ member))
      exact ⟨second :: seconds, .cons isRelated areRelated⟩

theorem exists_forall₂_between
    {related : α → γ → Prop} {before : α → β → Prop} {after : β → γ → Prop}
    (links : ∀ first last, related first last →
      ∃ middle, before first middle ∧ after middle last)
    {firsts : List α} {lasts : List γ}
    (beside : List.Forall₂ related firsts lasts) :
    ∃ middles, List.Forall₂ before firsts middles ∧
      List.Forall₂ after middles lasts := by
  induction beside with
  | nil => exact ⟨[], .nil, .nil⟩
  | cons isRelated _ ih =>
      obtain ⟨middle, isBefore, isAfter⟩ := links _ _ isRelated
      obtain ⟨middles, areBefore, areAfter⟩ := ih
      exact ⟨middle :: middles, .cons isBefore areBefore, .cons isAfter areAfter⟩

section

variable
  {related : α → β → Prop}
  {firsts : List α}
  {seconds : List β}
  (beside : List.Forall₂ related firsts seconds)

include beside

theorem exists_beside_right :
    ∀ second ∈ seconds, ∃ first ∈ firsts, related first second := by
  induction beside with
  | nil => nofun
  | cons isRelated _ ih =>
      intro second member
      rcases mem_cons.mp member with rfl | inRest
      · exact ⟨_, mem_cons_self .., isRelated⟩
      · obtain ⟨first, inFirsts, isRelated'⟩ := ih second inRest
        exact ⟨first, mem_cons_of_mem _ inFirsts, isRelated'⟩

theorem exists_beside_left :
    ∀ first ∈ firsts, ∃ second ∈ seconds, related first second := by
  intro first member
  exact exists_beside_right beside.flip first member

end

theorem pairwise_of_forall₂
    {related : α → β → Prop} {before : α → α → Prop} {after : β → β → Prop}
    (carries : ∀ first first' second second',
      before first first' → related first second → related first' second' →
        after second second')
    {firsts : List α} {seconds : List β}
    (beside : List.Forall₂ related firsts seconds)
    (pairwise : firsts.Pairwise before) :
    seconds.Pairwise after := by
  induction beside with
  | nil => exact .nil
  | cons isRelated areRelated ih =>
      rw [pairwise_cons] at pairwise ⊢
      refine ⟨fun second member => ?_, ih pairwise.2⟩
      obtain ⟨first, inFirsts, isRelated'⟩ :=
        exists_beside_right areRelated second member
      exact carries _ _ _ _ (pairwise.1 first inFirsts) isRelated isRelated'

theorem forall₂_of_map_eq
    {left : α → γ} {right : β → γ} {firsts : List α} {seconds : List β}
    (equal : firsts.map left = seconds.map right) :
    List.Forall₂ (fun first second => left first = right second) firsts
      seconds := by
  have beside : List.Forall₂ Eq (firsts.map left) (seconds.map right) := by
    rw [forall₂_eq_eq_eq]
    exact equal
  rwa [forall₂_map_left_iff, forall₂_map_right_iff] at beside

theorem sublist_map_of_found
    {first : α → κ} {second : β → κ} {firsts : List α} {found : List (Option β)}
    (beside : List.Forall₂ (fun value other =>
      ∀ held ∈ other, second held = first value) firsts found) :
    ((found.filterMap id).map second).Sublist (firsts.map first) := by
  induction beside with
  | nil => exact nil_sublist _
  | @cons value other _ _ isFound _ ih =>
      cases other with
      | none => exact ih.cons _
      | some held =>
          rw [filterMap_cons, id]
          dsimp only
          rw [map_cons, map_cons, isFound held rfl]
          exact ih.cons_cons _

/-- What visits every wanted thing once has the same results. -/
theorem perm_filterMap_of_visits
    {key : α → κ} {make : α → Option β} {first second : List α}
    (agree : ∀ value ∈ first ++ second, ∀ other ∈ first ++ second,
      key value = key other → make value = make other)
    (once : first.Pairwise (fun value other =>
      (make value).isSome → key value ≠ key other))
    (once' : second.Pairwise (fun value other =>
      (make value).isSome → key value ≠ key other))
    (sound : ∀ value ∈ first, (make value).isSome →
      ∃ other ∈ second, key other = key value)
    (complete : ∀ value ∈ second, (make value).isSome →
      ∃ other ∈ first, key other = key value) :
    (first.filterMap make).Perm (second.filterMap make) := by
  classical
  -- A result depends on the key alone, so the keys are what is permuted.
  let result (wanted : κ) : Option β :=
    ((first ++ second).find? (fun value => key value = wanted)).bind make
  have isResult : ∀ value ∈ first ++ second, make value = result (key value) := by
    intro value member
    cases found : (first ++ second).find? (fun other => key other = key value) with
    | none =>
        have none := find?_eq_none.mp found value member
        simp at none
    | some other =>
        have sameKey : key other = key value := by
          simpa using find?_some found
        have inBoth := mem_of_find?_eq_some found
        simp only [result, found, bind_some]
        exact agree value member other inBoth sameKey.symm
  have byKey : ∀ values : List α, values ⊆ first ++ second →
      values.filterMap make = ((values.map key).filter
          (fun wanted => (result wanted).isSome)).filterMap result := by
    intro values within
    rw [filterMap_filter, filterMap_map]
    refine filterMap_congr (fun value member => ?_)
    rw [isResult value (within member), Function.comp_apply]
    cases result (key value) <;> rfl
  have nodup : ∀ values : List α, values ⊆ first ++ second →
      values.Pairwise (fun value other => (make value).isSome → key value ≠ key other) →
      ((values.map key).filter (fun wanted => (result wanted).isSome)).Nodup := by
    intro values within visited
    rw [List.Nodup, pairwise_filter, pairwise_map]
    refine visited.imp_of_mem (fun member _ apart isSome _ => ?_)
    rw [← isResult _ (within member)] at isSome
    exact apart isSome
  rw [byKey first (subset_append_left ..), byKey second (subset_append_right ..)]
  refine List.Perm.filterMap _ ((perm_ext_iff_of_nodup (nodup _ (subset_append_left ..)
    once) (nodup _ (subset_append_right ..) once')).mpr (fun wanted => ?_))
  rw [mem_filter, mem_filter, List.mem_map, List.mem_map]
  refine and_congr_left (fun isSome => ⟨?_, ?_⟩)
  · rintro ⟨value, member, rfl⟩
    rw [← isResult value (mem_append_left _ member)] at isSome
    exact sound value member isSome
  · rintro ⟨value, member, rfl⟩
    rw [← isResult value (mem_append_right _ member)] at isSome
    exact complete value member isSome

theorem filterMap_eq_of_forall₂
    {left : α → Option γ} {right : β → Option γ} {firsts : List α}
    {seconds : List β}
    (beside : List.Forall₂ (fun first second => left first = right second)
      firsts seconds) :
    firsts.filterMap left = seconds.filterMap right := by
  induction beside with
  | nil => rfl
  | cons equal _ ih => rw [filterMap_cons, filterMap_cons, equal, ih]

theorem eq_of_perm_of_length_le_one
    {first second : List α} (perm : first.Perm second)
    (short : first.length ≤ 1) :
    first = second := by
  rcases first with _ | ⟨value, _ | ⟨other, rest⟩⟩
  · exact (nil_perm.mp perm).symm
  · exact (singleton_perm.mp perm)
  · rw [length_cons, length_cons] at short
    omega

end

end SlateOrm
