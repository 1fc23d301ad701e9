import Mathlib.Data.List.Nodup
import Mathlib.Data.List.Perm.Subperm
import Mathlib.Logic.Relation

namespace SlateOrm

open List

/-!
# Walks over what leads to what

A walk starts at an item and goes on to what each item leads to, to each key
once.  It is refused beyond a number of items.  What it visits are the keys
that can be reached, in whatever order the items are led to.
-/

/-- The items a walk has come to, in order, and their keys. -/
structure Worklist (ν κ : Type) where
  items : List ν
  seen : List κ

namespace Worklist

variable
  {ν κ ε : Type}
  [BEq κ]
  (key : ν → κ)
  (limit : Nat)
  (refusal : ε)

/-- Come to an item, unless its key was come to before. -/
def offer (walked : Worklist ν κ) (found : ν) : Except ε (Worklist ν κ) :=
  if walked.seen.contains (key found) then
    .ok walked
  else if limit ≤ walked.items.length then
    .error refusal
  else
    .ok ⟨walked.items ++ [found], key found :: walked.seen⟩

/-- Come to what the items lead to, from a position on. -/
def walk (kids : ν → List ν) : Nat → Nat → Worklist ν κ → Except ε (Worklist ν κ)
  | 0, _, walked => .ok walked
  | fuel + 1, position, walked =>
      match walked.items[position]? with
      | none => .ok walked
      | some item =>
          match (kids item).foldlM (offer key limit refusal) walked with
          | .error error => .error error
          | .ok walked => walk kids fuel (position + 1) walked

/-- An item that can be come to. -/
def Reached (kids : ν → List ν) (root item : ν) : Prop :=
  Relation.ReflTransGen (fun item kid => kid ∈ kids item) root item

/-- A walk has come to items that can be reached, each key once. -/
structure Sound (kids : ν → List ν) (root : ν) (walked : Worklist ν κ) :
    Prop where
  start : root ∈ walked.items
  nodup : (walked.items.map key).Nodup
  seen : ∀ wanted, wanted ∈ walked.seen ↔ wanted ∈ walked.items.map key
  reached : ∀ item ∈ walked.items, Reached kids root item

/-- A walk comes to what its first items lead to. -/
def ClosedBelow (kids : ν → List ν) (position : Nat) (walked : Worklist ν κ) : Prop :=
  ∀ place < position, ∀ item, walked.items[place]? = some item →
    ∀ kid ∈ kids item, key kid ∈ walked.seen

/-- More keys can be reached than a walk may come to. -/
def Exceeds (kids : ν → List ν) (root : ν) : Prop :=
  ∃ items : List ν, limit < items.length ∧ (items.map key).Nodup ∧
    ∀ item ∈ items, Reached kids root item

variable
  {key}
  {limit}
  {refusal}
  {kids : ν → List ν}
  {root : ν}

omit [BEq κ] in
theorem sound_start
    (kids : ν → List ν) (root : ν) :
    Sound key kids root ⟨[root], [key root]⟩ := by
  refine ⟨mem_singleton.mpr rfl, nodup_singleton _, ?_, ?_⟩
  · intro wanted
    rfl
  · intro item member
    rw [mem_singleton.mp member]
    exact .refl

variable [LawfulBEq κ]

/-- A walk that comes to a reachable item stays sound, or there are too many. -/
theorem offer_spec
    (limit : Nat) (refusal : ε) {walked : Worklist ν κ} {found : ν}
    (sound : Sound key kids root walked)
    (isReached : Reached kids root found) :
    (∃ after, offer key limit refusal walked found = .ok after ∧
        Sound key kids root after ∧ walked.items <+: after.items ∧
        key found ∈ after.seen ∧
        (walked.items.length ≤ limit → after.items.length ≤ limit)) ∨
      (offer key limit refusal walked found = .error refusal ∧
        Exceeds key limit kids root) := by
  rw [offer]
  by_cases isSeen : walked.seen.contains (key found) = true
  · rw [if_pos isSeen]
    exact Or.inl ⟨walked, rfl, sound, prefix_rfl, contains_iff_mem.mp isSeen, id⟩
  · rw [if_neg isSeen]
    have isNew : key found ∉ walked.items.map key := by
      rw [← sound.seen, ← contains_iff_mem]
      exact isSeen
    have nodup : ((walked.items ++ [found]).map key).Nodup := by
      rw [map_append, nodup_append]
      refine ⟨sound.nodup, nodup_singleton _, ?_⟩
      rintro other isOld _ isLast rfl
      rw [mem_singleton.mp isLast] at isOld
      exact isNew isOld
    have reached : ∀ item ∈ walked.items ++ [found], Reached kids root item := by
      intro item member
      rcases mem_append.mp member with isOld | isLast
      · exact sound.reached item isOld
      · rw [mem_singleton.mp isLast]
        exact isReached
    by_cases isFull : limit ≤ walked.items.length
    · rw [if_pos isFull]
      refine Or.inr ⟨rfl, walked.items ++ [found], ?_, nodup, reached⟩
      rw [length_append]
      exact Nat.lt_succ_of_le isFull
    · rw [if_neg isFull]
      refine Or.inl ⟨_, rfl, ⟨mem_append_left _ sound.start, nodup, ?_,
        reached⟩, prefix_append _ _, mem_cons_self .., fun _ => ?_⟩
      · intro wanted
        rw [mem_cons, sound.seen, map_append, mem_append, map_singleton, mem_singleton]
        exact or_comm
      · rw [length_append]
        exact Nat.succ_le_of_lt (Nat.lt_of_not_le isFull)

/-- A walk comes to a list of items one by one. -/
theorem foldlM_offer_spec
    (limit : Nat) (refusal : ε) {walked : Worklist ν κ} {found : List ν}
    (sound : Sound key kids root walked)
    (areReached : ∀ item ∈ found, Reached kids root item) :
    (∃ after, found.foldlM (offer key limit refusal) walked = .ok after ∧
        Sound key kids root after ∧ walked.items <+: after.items ∧
        (∀ item ∈ found, key item ∈ after.seen) ∧
        (walked.items.length ≤ limit → after.items.length ≤ limit)) ∨
      (found.foldlM (offer key limit refusal) walked = .error refusal ∧
        Exceeds key limit kids root) := by
  induction found generalizing walked with
  | nil => exact Or.inl ⟨walked, rfl, sound, prefix_rfl, nofun, id⟩
  | cons first rest ih =>
      rw [foldlM_cons]
      have firstReached := areReached first (mem_cons_self ..)
      rcases offer_spec limit refusal sound firstReached with
        ⟨between, offered, sound', grows, isSeen, fits⟩ | ⟨refused, exceeds⟩
      · rw [offered]
        rcases ih sound' (fun item member =>
          areReached item (mem_cons_of_mem _ member)) with
          ⟨after, walked', sound'', grows', areSeen, fits'⟩ |
            ⟨refused, exceeds⟩
        · refine Or.inl ⟨after, walked', sound'', grows.trans grows', ?_,
            fun few => fits' (fits few)⟩
          intro item member
          rcases mem_cons.mp member with rfl | inRest
          · rw [sound''.seen]
            exact (grows'.map key).subset ((sound'.seen _).mp isSeen)
          · exact areSeen item inRest
        · exact Or.inr ⟨refused, exceeds⟩
      · rw [refused]
        exact Or.inr ⟨rfl, exceeds⟩

/-- A walk goes on until everything is come to, or there is too much. -/
theorem walk_spec
    {fuel position : Nat} {walked : Worklist ν κ}
    (sound : Sound key kids root walked)
    (closed : ClosedBelow key kids position walked)
    (few : walked.items.length ≤ limit)
    (enough : limit ≤ position + fuel) :
    (∃ after, walk key limit refusal kids fuel position walked = .ok after ∧
        Sound key kids root after ∧
        ClosedBelow key kids after.items.length after ∧
        after.items.length ≤ limit) ∨
      (walk key limit refusal kids fuel position walked = .error refusal ∧
        Exceeds key limit kids root) := by
  have whole : walked.items.length ≤ position →
      ClosedBelow key kids walked.items.length walked :=
    fun isPast place inside => closed place (Nat.lt_of_lt_of_le inside isPast)
  induction fuel generalizing position walked with
  | zero => exact Or.inl ⟨walked, rfl, sound, whole (Nat.le_trans few enough), few⟩
  | succ fuel ih =>
      rw [walk]
      cases isItem : walked.items[position]? with
      | none =>
          exact Or.inl ⟨walked, rfl, sound,
            whole (getElem?_eq_none_iff.mp isItem), few⟩
      | some item =>
          have isReached := sound.reached item (mem_of_getElem? isItem)
          rcases foldlM_offer_spec limit refusal sound
            (fun kid isKid => isReached.tail isKid) with
            ⟨after, offered, sound', grows, areSeen, fits⟩ |
              ⟨refused, exceeds⟩
          · dsimp only
            rw [offered]
            have closed' : ClosedBelow key kids (position + 1) after := by
              intro place inside other isOther kid isKid
              have before : place < walked.items.length :=
                Nat.lt_of_le_of_lt (Nat.le_of_lt_succ inside)
                  (List.getElem?_eq_some_iff.mp isItem).1
              have same : after.items[place]? = walked.items[place]? :=
                (prefix_iff_getElem?.mp grows place before).trans
                  (getElem?_eq_getElem before).symm
              rw [same] at isOther
              rcases Nat.lt_or_eq_of_le (Nat.le_of_lt_succ inside) with
                earlier | rfl
              · rw [sound'.seen]
                exact (grows.map key).subset ((sound.seen _).mp
                  (closed place earlier other isOther kid isKid))
              · cases isItem.symm.trans isOther
                exact areSeen kid isKid
            refine ih sound' closed' (fits few) ?_ ?_
            · omega
            · exact fun isPast place inside =>
                closed' place (Nat.lt_of_lt_of_le inside isPast)
          · dsimp only
            rw [refused]
            exact Or.inr ⟨rfl, exceeds⟩

/-- Items under one key lead to the same keys. -/
def Respects (key : ν → κ) (kids : ν → List ν) (root : ν) : Prop :=
  ∀ item other, Reached kids root item → Reached kids root other →
    key item = key other → ∀ kid ∈ kids item, ∃ kid' ∈ kids other, key kid' = key kid

omit [BEq κ] [LawfulBEq κ] in
theorem seen_of_reached
    {walked : Worklist ν κ} (respects : Respects key kids root)
    (sound : Sound key kids root walked)
    (closed : ClosedBelow key kids walked.items.length walked) {item : ν}
    (isReached : Reached kids root item) :
    key item ∈ walked.seen := by
  induction isReached with
  | refl => exact (sound.seen _).mpr (mem_map_of_mem sound.start)
  | tail before isKid isSeen =>
      obtain ⟨other, member, sameKey⟩ := mem_map.mp ((sound.seen _).mp isSeen)
      obtain ⟨kid, isKid', sameKid⟩ := respects _ other before
        (sound.reached other member) sameKey.symm _ isKid
      obtain ⟨place, inside, isPlace⟩ := mem_iff_getElem.mp member
      rw [← sameKid]
      exact closed place inside other
        (List.getElem?_eq_some_iff.mpr ⟨inside, isPlace⟩) kid isKid'

theorem walk_root
    (refusal : ε) (respects : Respects key kids root)
    (room : 1 ≤ limit) :
    (∃ walked, walk key limit refusal kids limit 0 ⟨[root], [key root]⟩ = .ok walked ∧
        Sound key kids root walked ∧
        (∀ item, Reached kids root item → key item ∈ walked.seen) ∧
        ¬Exceeds key limit kids root) ∨
      (walk key limit refusal kids limit 0 ⟨[root], [key root]⟩ = .error refusal ∧
        Exceeds key limit kids root) := by
  rcases walk_spec (sound_start kids root) (nofun : ClosedBelow key kids 0 _)
    room (Nat.le_of_eq (Nat.zero_add limit).symm) with
    ⟨walked, isWalk, sound, closed, few⟩ | refused
  · have complete : ∀ item, Reached kids root item → key item ∈ walked.seen :=
      fun item isReached => seen_of_reached respects sound closed isReached
    refine Or.inl ⟨walked, isWalk, sound, complete, ?_⟩
    rintro ⟨items, many, nodup, reached⟩
    have within : items.map key ⊆ walked.items.map key := by
      intro wanted member
      obtain ⟨item, inItems, rfl⟩ := mem_map.mp member
      exact (sound.seen _).mp (complete item (reached item inItems))
    have lengths := (subperm_of_subset nodup within).length_le
    rw [length_map, length_map] at lengths
    omega
  · exact Or.inr refused

end Worklist

end SlateOrm
