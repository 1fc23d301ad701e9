import SlateOrm.KeyRange
import SlateOrm.TupleElementOrder

namespace SlateOrm

/-!
# Which keys a range contains

The keys that begin with some bytes are exactly the keys of one range, and the
keys of an intersection are those of both ranges.
-/

theorem isLT_compare_succ
    {byte : UInt8}
    (notLast : byte ≠ 0xFF)
    (other : UInt8) :
    (compare other (byte + 1)).isLT = (compare other byte).isLE := by
  have next : (byte + 1).toNat = byte.toNat + 1 := by
    have small := byte.toNat_lt
    have notMax : byte.toNat ≠ 255 := by
      intro isMax
      exact notLast (UInt8.toNat_inj.mp isMax)
    rw [UInt8.toNat_add]
    exact Nat.mod_eq_of_lt (by change byte.toNat + 1 < 256; omega)
  rw [compare_byte, compare_byte, next, Bool.eq_iff_iff,
    Ordering.isLT_iff_eq_lt, compare_lt_iff_lt, Ordering.isLE_iff_ne_gt]
  rw [compare_gt_iff_gt]
  omega

/--
The keys that begin with some bytes are those at or above them and below their
successor.
-/
theorem isPrefix_iff_between
    (bytes key : Bytes) :
    bytes <+: key ↔ (compare key bytes).isGE = true ∧
        ∀ successor, prefixSuccessor bytes = some successor →
          (compare key successor).isLT = true := by
  induction bytes generalizing key with
  | nil =>
      simp [prefixSuccessor]
      cases key <;> rfl
  | cons byte rest ih =>
      cases key with
      | nil => simp
      | cons first others =>
          rw [List.cons_prefix_cons, ih others, List.compare_cons_cons, prefixSuccessor]
          cases order : compare first byte with
          | lt =>
              have differ : byte ≠ first := by
                rintro rfl
                rw [Std.ReflOrd.compare_self] at order
                cases order
              simp [differ]
          | eq =>
              obtain rfl := Std.LawfulEqOrd.eq_of_compare order
              cases after : prefixSuccessor rest with
              | some successor =>
                  simp [List.compare_cons_cons, Std.ReflOrd.compare_self]
              | none =>
                  by_cases isLast : first = 0xFF
                  · simp [isLast]
                  · have below : (compare first (first + 1)).isLT = true := by
                      rw [isLT_compare_succ isLast, Std.ReflOrd.compare_self]
                      rfl
                    rw [Ordering.isLT_iff_eq_lt] at below
                    simp [isLast, List.compare_cons_cons, below]
          | gt =>
              have differ : byte ≠ first := by
                rintro rfl
                rw [Std.ReflOrd.compare_self] at order
                cases order
              cases after : prefixSuccessor rest with
              | some successor => simp [differ, List.compare_cons_cons, order]
              | none =>
                  by_cases isLast : byte = 0xFF
                  · have above := compare_gt_iff_gt.mp
                      ((compare_byte first byte).symm.trans order)
                    have small := first.toNat_lt
                    rw [isLast] at above
                    change 255 < first.toNat at above
                    omega
                  · have notBelow : (compare first (byte + 1)).isLT = false := by
                      rw [isLT_compare_succ isLast, order]
                      rfl
                    simp only [differ, false_and, isLast, if_false, Option.some.injEq,
                      forall_eq', List.compare_cons_cons, false_iff, not_and]
                    intro _ below
                    cases reached : compare first (byte + 1) with
                    | lt =>
                        rw [reached] at notBelow
                        cases notBelow
                    | eq =>
                        rw [reached] at below
                        cases others <;> cases below
                    | gt =>
                        rw [reached] at below
                        cases below

namespace KeyRange

@[simp] theorem contains_ofPrefix
    (bytes key : Bytes) :
    (ofPrefix bytes).contains key = true ↔ bytes <+: key := by
  rw [isPrefix_iff_between, contains, ofPrefix, Bool.and_eq_true]
  cases prefixSuccessor bytes <;> simp [aboveStart, belowEnd]

theorem aboveStart_iff
    (start : Bound) (key : Bytes) :
    aboveStart start key = true ↔
      match start with
      | .unbounded => True
      | .included bound => (compare bound key).isLE = true
      | .excluded bound => compare bound key = .lt := by
  cases start with
  | unbounded => simp [aboveStart]
  | included bound => exact Std.OrientedCmp.isGE_iff_isLE
  | excluded bound =>
      rw [aboveStart, Ordering.isGT_iff_eq_gt]
      exact Std.OrientedCmp.gt_iff_lt

theorem belowEnd_iff
    (stop : Bound) (key : Bytes) :
    belowEnd stop key = true ↔
      match stop with
      | .unbounded => True
      | .included bound => (compare key bound).isLE = true
      | .excluded bound => compare key bound = .lt := by
  cases stop <;> simp [belowEnd, Ordering.isLT_iff_eq_lt]

theorem holds_ite
    (holds : Bound → Prop) {chosen : Prop} [Decidable chosen]
    {first second : Bound} (covers : chosen → holds first → holds second)
    (covered : ¬ chosen → holds second → holds first) :
    holds (if chosen then first else second) ↔ holds first ∧ holds second := by
  split
  · next isFirst => exact (and_iff_left_of_imp (covers isFirst)).symm
  · next isSecond => exact (and_iff_right_of_imp (covered isSecond)).symm

variable {first second : Bytes}

theorem isLE_of_not_isGT
    (order : ¬ (compare first second).isGT = true) :
    (compare first second).isLE = true := by
  cases same : compare first second <;> simp_all

theorem lt_of_isGT
    (order : (compare first second).isGT = true) :
    compare second first = .lt :=
  Std.OrientedCmp.lt_of_gt (Ordering.isGT_iff_eq_gt.mp order)

theorem isLE_of_not_isLT
    (order : ¬ (compare first second).isLT = true) :
    (compare second first).isLE = true := by
  rw [Std.OrientedOrd.eq_swap]
  cases same : compare first second <;> simp_all

theorem isLE_of_lt
    (less : compare first second = .lt) :
    (compare first second).isLE = true := by
  rw [less]
  rfl

/-- A key is above the later of two lower bounds when it is above both. -/
theorem aboveStart_maxStart
    (first second : Bound) (key : Bytes) :
    aboveStart (maxStart first second) key = true ↔
      aboveStart first key = true ∧ aboveStart second key = true := by
  -- One of the bounds is no later than the other, and says nothing more.
  cases first with
  | unbounded => simp [maxStart, aboveStart]
  | included x =>
      cases second with
      | unbounded => simp [maxStart, aboveStart]
      | included y =>
          refine holds_ite (aboveStart · key) ?_ ?_ <;>
            simp only [aboveStart_iff] <;> intro order above
          · exact Std.TransOrd.isLE_trans (isLE_of_lt (lt_of_isGT order)) above
          · exact Std.TransOrd.isLE_trans (isLE_of_not_isGT order) above
      | excluded y =>
          refine holds_ite (aboveStart · key) ?_ ?_ <;>
            simp only [aboveStart_iff] <;> intro order above
          · exact Std.TransCmp.lt_of_lt_of_isLE (lt_of_isGT order) above
          · exact Std.TransOrd.isLE_trans (isLE_of_not_isGT order) (isLE_of_lt above)
  | excluded x =>
      rw [and_comm]
      cases second with
      | unbounded => simp [maxStart, aboveStart]
      | included y =>
          refine holds_ite (aboveStart · key) ?_ ?_ <;>
            simp only [aboveStart_iff] <;> intro order above
          · exact Std.TransCmp.lt_of_lt_of_isLE (lt_of_isGT order) above
          · exact Std.TransOrd.isLE_trans (isLE_of_not_isGT order) (isLE_of_lt above)
      | excluded y =>
          refine holds_ite (aboveStart · key) ?_ ?_ <;>
            simp only [aboveStart_iff] <;> intro order above
          · exact Std.TransCmp.lt_trans (lt_of_isGT order) above
          · exact Std.TransCmp.lt_of_isLE_of_lt (isLE_of_not_isGT order) above

/-- A key is below the earlier of two upper bounds when it is below both. -/
theorem belowEnd_minEnd
    (first second : Bound) (key : Bytes) :
    belowEnd (minEnd first second) key = true ↔
      belowEnd first key = true ∧ belowEnd second key = true := by
  cases first with
  | unbounded => simp [minEnd, belowEnd]
  | included x =>
      cases second with
      | unbounded => simp [minEnd, belowEnd]
      | included y =>
          refine holds_ite (belowEnd · key) ?_ ?_ <;>
            simp only [belowEnd_iff] <;> intro order below
          · exact Std.TransOrd.isLE_trans below
              (isLE_of_lt (Ordering.isLT_iff_eq_lt.mp order))
          · exact Std.TransOrd.isLE_trans below (isLE_of_not_isLT order)
      | excluded y =>
          refine holds_ite (belowEnd · key) ?_ ?_ <;>
            simp only [belowEnd_iff] <;> intro order below
          · exact Std.TransCmp.lt_of_isLE_of_lt below (Ordering.isLT_iff_eq_lt.mp order)
          · exact Std.TransOrd.isLE_trans (isLE_of_lt below) (isLE_of_not_isLT order)
  | excluded x =>
      rw [and_comm]
      cases second with
      | unbounded => simp [minEnd, belowEnd]
      | included y =>
          refine holds_ite (belowEnd · key) ?_ ?_ <;>
            simp only [belowEnd_iff] <;> intro order below
          · exact Std.TransCmp.lt_of_isLE_of_lt below (Ordering.isLT_iff_eq_lt.mp order)
          · exact Std.TransOrd.isLE_trans (isLE_of_lt below) (isLE_of_not_isLT order)
      | excluded y =>
          refine holds_ite (belowEnd · key) ?_ ?_ <;>
            simp only [belowEnd_iff] <;> intro order below
          · exact Std.TransCmp.lt_trans below (Ordering.isLT_iff_eq_lt.mp order)
          · exact Std.TransCmp.lt_of_lt_of_isLE below (isLE_of_not_isLT order)

@[simp] theorem contains_intersect
    (first second : KeyRange) (key : Bytes) :
    (first.intersect second).contains key = true ↔
      first.contains key = true ∧ second.contains key = true := by
  rw [contains, contains, contains, intersect, Bool.and_eq_true,
    Bool.and_eq_true, Bool.and_eq_true, aboveStart_maxStart, belowEnd_minEnd]
  tauto

/-- The keys of a range. -/
def keys (range : KeyRange) : Set Bytes := {key | range.contains key = true}

theorem keys_intersect
    (first second : KeyRange) :
    (first.intersect second).keys = first.keys ∩ second.keys :=
  Set.ext (contains_intersect first second)

/--
Ranges meet in their common keys, whatever ends they have: a range said to be
empty has none, and neither the order of ranges nor how they are grouped changes
the keys of their intersection.
-/
theorem keys_meet :
    (∀ (first second : KeyRange) (key : Bytes),
      (first.intersect second).contains key = true ↔
        first.contains key = true ∧ second.contains key = true) ∧
      (∀ range : KeyRange, range.isEmpty = true → ∀ key, range.contains key = false) ∧
      (∀ first second : KeyRange,
        (first.intersect second).keys = (second.intersect first).keys) ∧
      ∀ first second third : KeyRange, ((first.intersect second).intersect third).keys =
          (first.intersect (second.intersect third)).keys := by
  refine ⟨contains_intersect, fun range => contains_eq_false_of_isEmpty,
    fun first second => ?_, fun first second third => ?_⟩
  · rw [keys_intersect, keys_intersect]
    exact Set.inter_comm _ _
  · simp only [keys_intersect]
    exact Set.inter_assoc _ _ _

end KeyRange

end SlateOrm
