import SlateOrm.OverlayMap

namespace SlateOrm.Overlay

open List

/-!
# Working through an ordered map in batches

A long piece of work over a region of an ordered map is done in batches: each
batch lists the first keys after the last one of the batch before it, and
carries out some writes.  Writes outside the region leave its listing as it
is, and resuming after the last key of a batch leaves exactly the rest.
-/

variable {Key Value : Type} [Ord Key] [Std.TransOrd Key]

/-- Carry out writes one after the other. -/
def carryOut (base : Map Key Value)
    (changes : List (Key × Option Value)) : Map Key Value :=
  apply base (buffer ∅ changes)

variable [Std.LawfulEqOrd Key]

theorem getElem?_carryOut
    (base : Map Key Value) (changes : List (Key × Option Value)) (query : Key) :
    (carryOut base changes)[query]? = (lastWrite query changes).getD base[query]? := by
  rw [carryOut, getElem?_apply, getElem?_buffer]
  simp

@[simp] theorem carryOut_nil
    (base : Map Key Value) :
    carryOut base [] = base := by
  rw [carryOut, buffer, foldl_nil, apply_empty]

omit [Std.TransOrd Key] [Std.LawfulEqOrd Key] in
theorem lastWrite_append
    (query : Key) (first second : List (Key × Option Value)) :
    lastWrite query (first ++ second) =
      (lastWrite query second).or (lastWrite query first) := by
  induction first with
  | nil => simp [lastWrite]
  | cons change rest ih => rw [cons_append, lastWrite, lastWrite, ih, Option.or_assoc]

theorem carryOut_append
    (base : Map Key Value) (first second : List (Key × Option Value)) :
    carryOut base (first ++ second) = carryOut (carryOut base first) second := by
  apply Std.ExtTreeMap.ext_getElem?
  intro query
  rw [getElem?_carryOut, getElem?_carryOut, getElem?_carryOut, lastWrite_append]
  cases lastWrite query second <;> rfl

theorem getElem?_carryOut_of_absent
    {query : Key} {changes : List (Key × Option Value)} (base : Map Key Value)
    (absent : ∀ change ∈ changes, change.1 ≠ query) :
    (carryOut base changes)[query]? = base[query]? := by
  rw [getElem?_carryOut, lastWrite_of_absent absent]
  rfl

/-! ## Listing a region -/

/-- The entries of a region, in the order of their keys. -/
def listing (region : Key → Bool) (entries : Map Key Value) : List (Key × Value) :=
  entries.toList.filter (fun entry => region entry.1)

variable {entries : Map Key Value} {region : Key → Bool}
  {batch rest : List (Key × Value)}

theorem mem_listing
    {key : Key} {value : Value} :
    (key, value) ∈ listing region entries ↔
      region key = true ∧ entries[key]? = some value := by
  rw [listing, mem_filter, Std.ExtTreeMap.mem_toList_iff_getElem?_eq_some, and_comm]

omit [Std.LawfulEqOrd Key] in
theorem ordered_listing
    (region : Key → Bool) (entries : Map Key Value) :
    (listing region entries).Pairwise
      (fun first second => compare first.1 second.1 = .lt) :=
  Std.ExtTreeMap.ordered_keys_toList.filter _

theorem listing_congr
    {first second : Map Key Value}
    (agree : ∀ key, region key = true → first[key]? = second[key]?) :
    listing region first = listing region second := by
  have same : within region first = within region second := by
    apply Std.ExtTreeMap.ext_getElem?
    intro key
    rw [getElem?_within, getElem?_within]
    split
    · next inRegion => exact agree key inRegion
    · rfl
  rw [listing, listing, ← toList_within, ← toList_within, same]

omit [Std.LawfulEqOrd Key] in
/-- Resuming after the last key of a batch leaves the rest. -/
theorem listing_resumed
    {region later : Key → Bool} {last : Key × Value}
    (resumed : ∀ key, later key = (region key && (compare last.1 key == .lt)))
    (parts : listing region entries = batch ++ last :: rest) :
    listing later entries = rest := by
  have ordered := ordered_listing region entries
  rw [parts] at ordered
  have narrowed : listing later entries = (listing region entries).filter
          (fun entry => compare last.1 entry.1 == .lt) := by
    rw [listing, listing, filter_filter]
    exact filter_congr (fun entry _ => by
      rw [resumed, Bool.and_comm])
  obtain ⟨_, afterLast, across⟩ := pairwise_append.mp ordered
  have noneBefore : batch.filter (fun entry => compare last.1 entry.1 == .lt) = [] := by
    rw [filter_eq_nil_iff]
    intro entry inBatch isLater
    have sooner := across entry inBatch last (mem_cons_self ..)
    have back := Std.OrientedCmp.gt_of_lt sooner
    rw [back] at isLater
    cases isLater
  have allAfter : rest.filter (fun entry => compare last.1 entry.1 == .lt) = rest := by
    rw [filter_eq_self]
    intro entry inRest
    rw [(pairwise_cons.mp afterLast).1 entry inRest]
    rfl
  rw [narrowed, parts, filter_append, noneBefore, nil_append,
    filter_cons_of_neg, allAfter]
  simp [Std.ReflCmp.compare_self]

/-! ## Removing what was listed -/

/-- The removal of some entries. -/
def removals (entries : List (Key × Value)) : List (Key × Option Value) :=
  entries.map (fun entry => (entry.1, none))

theorem getElem?_removed
    [DecidableEq Key] (base : Map Key Value) (entries : List (Key × Value))
    (query : Key) :
    (carryOut base (removals entries))[query]? =
      if query ∈ entries.map Prod.fst then none else base[query]? := by
  split
  · next isRemoved =>
      obtain ⟨entry, member, rfl⟩ := mem_map.mp isRemoved
      have change : (entry.1, none) ∈ removals entries :=
        mem_map_of_mem (f := fun entry : Key × Value =>
          (entry.1, (none : Option Value))) member
      have isLast := lastWrite_of_mem change (by
        intro other isOther _
        obtain ⟨_, _, rfl⟩ := mem_map.mp isOther
        rfl)
      rw [getElem?_carryOut, isLast]
      rfl
  · next isKept =>
      refine getElem?_carryOut_of_absent base ?_
      rintro change isChange rfl
      obtain ⟨entry, member, rfl⟩ := mem_map.mp isChange
      exact isKept (mem_map_of_mem member)

/-- Removing the first entries of a listing leaves the others. -/
theorem listing_removed
    [DecidableEq Key]
    (parts : listing region entries = batch ++ rest) :
    listing region (carryOut entries (removals batch)) = rest := by
  have ordered := ordered_listing region entries
  rw [parts] at ordered
  obtain ⟨_, restOrdered, across⟩ := pairwise_append.mp ordered
  have notRemoved : ∀ entry ∈ rest, entry.1 ∉ batch.map Prod.fst := by
    intro entry inRest isRemoved
    obtain ⟨removed, inBatch, same⟩ := mem_map.mp isRemoved
    have sooner := across removed inBatch entry inRest
    rw [same] at sooner
    exact absurd (Std.ReflCmp.compare_self.symm.trans sooner) (by decide)
  have sameMembers : ∀ entry,
      entry ∈ listing region (carryOut entries (removals batch)) ↔ entry ∈ rest := by
    rintro ⟨key, value⟩
    rw [mem_listing, getElem?_removed]
    constructor
    · rintro ⟨inRegion, held⟩
      split at held
      · cases held
      · next isKept =>
          have listed : (key, value) ∈ listing region entries :=
            mem_listing.mpr ⟨inRegion, held⟩
          rw [parts, mem_append] at listed
          rcases listed with inBatch | inRest
          · exact absurd (mem_map_of_mem inBatch) isKept
          · exact inRest
    · intro inRest
      have listed : (key, value) ∈ listing region entries := by
        rw [parts]
        exact mem_append_right _ inRest
      obtain ⟨inRegion, held⟩ := mem_listing.mp listed
      rw [if_neg (notRemoved _ inRest)]
      exact ⟨inRegion, held⟩
  have nodup {listed : List (Key × Value)} (ordered : listed.Pairwise
        (fun first second => compare first.1 second.1 = .lt)) :
      listed.Nodup := by
    refine ordered.imp ?_
    rintro first second sooner rfl
    exact absurd (Std.ReflCmp.compare_self.symm.trans sooner) (by decide)
  have leftOrdered := ordered_listing region (carryOut entries (removals batch))
  have permuted := (perm_ext_iff_of_nodup (nodup leftOrdered)
    (nodup restOrdered)).mpr sameMembers
  refine permuted.eq_of_pairwise ?_ leftOrdered restOrdered
  intro first second _ _ sooner later
  rw [Std.OrientedCmp.gt_of_lt sooner] at later
  cases later

end SlateOrm.Overlay
