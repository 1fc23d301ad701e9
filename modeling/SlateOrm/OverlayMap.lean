import Mathlib.Data.List.Basic

namespace SlateOrm.Overlay

open List Option

/-!
# Buffered writes over an ordered map

A transaction reads a base map through a buffer of its own writes.  A buffered
write either binds a key or removes it.  Applying a buffer to a map, looking a
key up through it, and restricting both to part of the key space are related
here for arbitrary ordered keys.
-/

variable {Key Value : Type} [Ord Key]

/-- An ordered map. -/
abbrev Map (Key Value : Type) [Ord Key] := Std.ExtTreeMap Key Value compare

/-- Buffered writes: a new value for a key, or its removal. -/
abbrev Writes (Key Value : Type) [Ord Key] := Map Key (Option Value)

variable [Std.TransOrd Key]

/-- Carry out one buffered write. -/
def write (base : Map Key Value) (key : Key) : Option Value → Map Key Value
  | some value => base.insert key value
  | none => base.erase key

/-- Carry out every buffered write. -/
def apply (base : Map Key Value) (writes : Writes Key Value) : Map Key Value :=
  writes.foldl write base

/-- The part of a map that lies in one region of the key space. -/
def within (region : Key → Bool) (entries : Map Key Value) : Map Key Value :=
  .ofList (entries.toList.filter (fun entry => region entry.1)) compare

/-- Buffer writes one after the other. -/
def buffer (writes : Writes Key Value)
    (changes : List (Key × Option Value)) : Writes Key Value :=
  changes.foldl (fun writes change => writes.insert change.1 change.2) writes

/-- What the last of some writes to a key makes of it. -/
def lastWrite (query : Key) : List (Key × Option Value) → Option (Option Value)
  | [] => none
  | change :: rest =>
      (lastWrite query rest).or
        (if compare change.1 query = .eq then some change.2 else none)

/-- A buffer holds the last change of each key, and else what it held. -/
theorem getElem?_buffer
    (writes : Writes Key Value) (changes : List (Key × Option Value))
    (query : Key) :
    (buffer writes changes)[query]? = (lastWrite query changes).or writes[query]? := by
  induction changes generalizing writes with
  | nil => rfl
  | cons change rest ih =>
      rw [buffer, foldl_cons]
      refine (ih _).trans ?_
      rw [lastWrite, Option.or_assoc, Std.ExtTreeMap.getElem?_insert]
      split
      · rfl
      · rfl

/-- Changes may be buffered in two parts. -/
theorem buffer_append
    (writes : Writes Key Value) (first second : List (Key × Option Value)) :
    buffer writes (first ++ second) = buffer (buffer writes first) second := by
  rw [buffer, foldl_append]
  rfl

variable {writes : Writes Key Value} {query : Key}
  {changes : List (Key × Option Value)} {change : Key × Option Value}
  {value : Option Value}

/-- No change takes a key out of the buffer. -/
theorem mem_buffer_of_mem
    (changes : List (Key × Option Value))
    (buffered : query ∈ writes) :
    query ∈ buffer writes changes := by
  induction changes generalizing writes with
  | nil => exact buffered
  | cons change rest ih => exact ih (Std.ExtTreeMap.mem_insert.mpr (Or.inr buffered))

/-- Every key that is changed is buffered. -/
theorem mem_buffer_of_change
    (member : change ∈ changes) :
    change.1 ∈ buffer writes changes := by
  induction changes generalizing writes with
  | nil => cases member
  | cons first rest ih =>
      rcases mem_cons.mp member with rfl | inRest
      · exact mem_buffer_of_mem rest Std.ExtTreeMap.mem_insert_self
      · exact ih inRest

/-- A write binds its own key and leaves the others. -/
theorem getElem?_write
    (base : Map Key Value) (key : Key) (value : Option Value) (query : Key) :
    (write base key value)[query]? =
      if compare key query = .eq then value else base[query]? := by
  cases value with
  | some value => exact Std.ExtTreeMap.getElem?_insert
  | none => exact Std.ExtTreeMap.getElem?_erase

/-- A key that is not listed reads as in the base. -/
private theorem getElem?_foldl_of_absent
    (base : Map Key Value) (listed : List (Key × Option Value))
    (absent : ∀ entry ∈ listed, compare entry.1 query ≠ .eq) :
    (listed.foldl (fun entries entry =>
      write entries entry.1 entry.2) base)[query]? = base[query]? := by
  induction listed generalizing base with
  | nil => rfl
  | cons entry rest ih =>
      rw [foldl_cons, ih _
        (fun other member => absent other (mem_cons_of_mem _ member)),
        getElem?_write, if_neg (absent entry (mem_cons_self ..))]

variable [Std.LawfulEqOrd Key]

/-- A key that is listed reads as its entry says. -/
private theorem getElem?_foldl_of_mem
    (base : Map Key Value) {listed : List (Key × Option Value)}
    (ordered : listed.Pairwise (fun first second => compare first.1 second.1 = .lt))
    (member : (query, value) ∈ listed) :
    (listed.foldl (fun entries entry =>
      write entries entry.1 entry.2) base)[query]? = value := by
  induction listed generalizing base with
  | nil => cases member
  | cons entry rest ih =>
      rw [pairwise_cons] at ordered
      rw [foldl_cons]
      rcases mem_cons.mp member with isHead | inRest
      · subst isHead
        rw [getElem?_foldl_of_absent, getElem?_write, if_pos Std.ReflCmp.compare_self]
        intro other otherMember same
        have later := ordered.1 other otherMember
        rw [Std.LawfulEqOrd.eq_of_compare same, Std.ReflOrd.compare_self] at later
        cases later
      · exact ih _ ordered.2 inRest

/-- A buffered key reads as buffered, and any other as in the base. -/
theorem getElem?_apply
    (base : Map Key Value) (writes : Writes Key Value) (query : Key) :
    (apply base writes)[query]? = (writes[query]?).getD base[query]? := by
  unfold apply
  rw [Std.ExtTreeMap.foldl_eq_foldl_toList]
  cases buffered : writes[query]? with
  | some value =>
      have member := Std.ExtTreeMap.mem_toList_iff_getElem?_eq_some.mpr buffered
      exact getElem?_foldl_of_mem base Std.ExtTreeMap.ordered_keys_toList member
  | none =>
      apply getElem?_foldl_of_absent
      rintro ⟨key, value⟩ member same
      have sameKey : key = query := Std.LawfulEqOrd.eq_of_compare same
      have bound := Std.ExtTreeMap.mem_toList_iff_getElem?_eq_some.mp member
      rw [sameKey, buffered] at bound
      cases bound

@[simp] theorem apply_empty
    (base : Map Key Value) :
    apply base ∅ = base := by
  apply Std.ExtTreeMap.ext_getElem?
  intro query
  simp [getElem?_apply]

/-- A key outside the region is not in the part within it. -/
theorem getElem?_within
    (region : Key → Bool) (entries : Map Key Value) (query : Key) :
    (within region entries)[query]? =
      if region query then entries[query]? else none := by
  have distinct : (entries.toList.filter (fun entry => region entry.1)).Pairwise
        (fun first second => ¬compare first.1 second.1 = .eq) :=
    (Std.ExtTreeMap.distinct_keys_toList).filter _
  cases bound : if region query then entries[query]? else none with
  | some value =>
      rw [ite_none_right_eq_some] at bound
      have listed : (query, value) ∈
            entries.toList.filter (fun entry => region entry.1) :=
        mem_filter.mpr
          ⟨Std.ExtTreeMap.mem_toList_iff_getElem?_eq_some.mpr bound.2, bound.1⟩
      exact Std.ExtTreeMap.getElem?_ofList_of_mem Std.ReflCmp.compare_self
        distinct listed
  | none =>
      rw [within, Std.ExtTreeMap.ofList_eq_foldl]
      have absent : ∀ entry ∈ (entries.toList.filter (fun entry => region entry.1)).map
            (fun entry => (entry.1, some entry.2)),
          compare entry.1 query ≠ .eq := by
        intro entry member same
        obtain ⟨source, inPart, rfl⟩ := mem_map.mp member
        obtain ⟨inEntries, inRegion⟩ := mem_filter.mp inPart
        have isQuery : source.1 = query := Std.LawfulEqOrd.eq_of_compare same
        rw [← isQuery, if_pos inRegion,
          Std.ExtTreeMap.mem_toList_iff_getElem?_eq_some.mp inEntries] at bound
        cases bound
      have unwritten := getElem?_foldl_of_absent ∅ _ absent
      rw [foldl_map] at unwritten
      exact unwritten

/-- A map within a region lists the entries of the region, in order. -/
theorem toList_within
    (region : Key → Bool) (entries : Map Key Value) :
    (within region entries).toList =
      entries.toList.filter (fun entry => region entry.1) := by
  have filtered : within region entries = entries.filter (fun key _ => region key) := by
    apply Std.ExtTreeMap.ext_getElem?
    intro query
    rw [getElem?_within, Std.ExtTreeMap.getElem?_filter']
    cases region query with
    | true => cases entries[query]? <;> rfl
    | false => simp
  rw [filtered]
  exact Std.ExtTreeMap.toList_filter

/-- Applying a buffer and restricting to a region commute. -/
theorem apply_within
    (region : Key → Bool) (base : Map Key Value) (writes : Writes Key Value) :
    apply (within region base) (within region writes) =
      within region (apply base writes) := by
  apply Std.ExtTreeMap.ext_getElem?
  intro query
  simp only [getElem?_apply, getElem?_within]
  split <;> rfl

omit [Std.TransOrd Key] in
theorem lastWrite_of_absent
    (absent : ∀ change ∈ changes, change.1 ≠ query) :
    lastWrite query changes = none := by
  induction changes with
  | nil => rfl
  | cons change rest ih =>
      rw [lastWrite, ih (fun other member =>
        absent other (mem_cons_of_mem _ member)), if_neg]
      · rfl
      · intro same
        exact absent change (mem_cons_self ..) (Std.LawfulEqOrd.eq_of_compare same)

omit [Std.TransOrd Key] in
theorem lastWrite_of_mem
    (member : change ∈ changes)
    (agree : ∀ other ∈ changes, other.1 = change.1 → other.2 = change.2) :
    lastWrite change.1 changes = some change.2 := by
  induction changes with
  | nil => cases member
  | cons first rest ih =>
      have agreeRest : ∀ other ∈ rest, other.1 = change.1 → other.2 = change.2 :=
        fun other inRest => agree other (mem_cons_of_mem _ inRest)
      rw [lastWrite]
      by_cases again : ∃ other ∈ rest, other.1 = change.1
      · obtain ⟨other, otherMember, sameKey⟩ := again
        have isChange : other = change :=
          Prod.ext sameKey (agreeRest other otherMember sameKey)
        rw [ih (isChange ▸ otherMember) agreeRest, some_or]
      · have isFirst : change = first := (mem_cons.mp member).resolve_right
            (fun inRest => again ⟨change, inRest, rfl⟩)
        rw [lastWrite_of_absent (fun other otherMember same =>
          again ⟨other, otherMember, same⟩), none_or, isFirst,
          if_pos Std.ReflCmp.compare_self]

omit [Std.TransOrd Key] in
/-- The last change of a key is one of the changes. -/
theorem mem_of_lastWrite
    (isLast : lastWrite query changes = some value) :
    (query, value) ∈ changes := by
  induction changes with
  | nil => cases isLast
  | cons change rest ih =>
      rw [lastWrite] at isLast
      cases inRest : lastWrite query rest with
      | some later =>
          rw [inRest] at isLast
          cases isLast
          exact mem_cons_of_mem _ (ih inRest)
      | none =>
          rw [inRest, none_or] at isLast
          split at isLast
          · next same =>
              cases isLast
              rw [← Std.LawfulEqCmp.eq_of_compare same]
              exact mem_cons_self ..
          · cases isLast

theorem getElem?_buffer_of_absent
    (writes : Writes Key Value)
    (absent : ∀ change ∈ changes, change.1 ≠ query) :
    (buffer writes changes)[query]? = writes[query]? := by
  rw [getElem?_buffer, lastWrite_of_absent absent, none_or]

/-- Changes leave a buffer as it is exactly when it holds the last one of each key. -/
theorem buffer_eq_self_iff_lastWrite
    (writes : Writes Key Value) (changes : List (Key × Option Value)) :
    buffer writes changes = writes ↔
      ∀ query value, lastWrite query changes = some value →
        writes[query]? = some value := by
  constructor
  · intro unchanged query value isLast
    rw [← unchanged, getElem?_buffer, isLast, some_or]
  · intro buffered
    apply Std.ExtTreeMap.ext_getElem?
    intro query
    rw [getElem?_buffer]
    cases isLast : lastWrite query changes with
    | none => rw [none_or]
    | some value => rw [some_or, buffered query value isLast]

/--
Changes that agree on each key leave a buffer as it is exactly when it holds them.
-/
theorem buffer_eq_self_iff
    (writes : Writes Key Value)
    (agree : ∀ first ∈ changes, ∀ second ∈ changes,
      first.1 = second.1 → first.2 = second.2) :
    buffer writes changes = writes ↔
      ∀ change ∈ changes, writes[change.1]? = some change.2 := by
  rw [buffer_eq_self_iff_lastWrite]
  constructor
  · intro buffered change member
    exact buffered change.1 change.2 (lastWrite_of_mem member
      (fun other otherMember => agree other otherMember change member))
  · intro buffered query value isLast
    by_cases written : ∃ change ∈ changes, change.1 = query
    · obtain ⟨change, member, rfl⟩ := written
      rw [lastWrite_of_mem member (fun other otherMember =>
        agree other otherMember change member)] at isLast
      rw [buffered change member, isLast]
    · rw [lastWrite_of_absent (fun change member same =>
        written ⟨change, member, same⟩)] at isLast
      cases isLast

end SlateOrm.Overlay
