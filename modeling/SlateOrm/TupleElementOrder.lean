import Mathlib.Order.Compare
import Mathlib.Tactic.Ring
import SlateOrm.OrderedCode
import SlateOrm.TupleCodec

namespace SlateOrm

open OrderedCode

/-!
# Payloads that order their values

Each kind of payload an element can carry decides its comparison, in the sense
of `OrderedCode.DecidedBy`: fixed-width numbers, escaped byte strings, floats
with their sign folded, and integers of any sign and length.
-/

/-! ## Bytes and numbers -/

theorem compare_byte
    (first second : UInt8) :
    compare first second = compare first.toNat second.toNat := by
  simp only [compare, compareOfLessAndEq, UInt8.lt_iff_toNat_lt, ← UInt8.toNat_inj]

theorem xor_descMask
    (byte : UInt8) :
    byte ^^^ Direction.mask .desc = ~~~byte := by
  have allOnes : Direction.mask .desc = -1 := by decide
  rw [allOnes, UInt8.xor_neg_one]

@[simp] theorem extend_ascMask
    (bytes : Bytes) :
    extend (Direction.mask .asc) bytes = bytes := by
  simp [extend, Direction.mask]

theorem extend_descMask
    (bytes : Bytes) :
    extend (Direction.mask .desc) bytes = bytes.map (~~~ ·) := by
  unfold extend
  exact List.map_congr_left (fun byte _ => xor_descMask byte)

theorem complement_reverses :
    Reverses (fun byte : UInt8 => ~~~byte) := by
  intro first second
  have firstSmall := first.toNat_lt
  have secondSmall := second.toNat_lt
  rw [compare_byte, compare_byte, UInt8.toNat_not, UInt8.toNat_not]
  rcases lt_trichotomy first.toNat second.toNat with less | same | more
  · rw [Nat.compare_eq_lt.mpr less]
    exact Nat.compare_eq_gt.mpr (by simp only [UInt8.size]; omega)
  · rw [same]
    simp
  · rw [Nat.compare_eq_gt.mpr more]
    exact Nat.compare_eq_lt.mpr (by simp only [UInt8.size]; omega)

theorem compare_congr
    {First Second : Type} [LinearOrder First] [LinearOrder Second]
    {first first' : First} {second second' : Second}
    (less : first < first' ↔ second < second')
    (more : first' < first ↔ second' < second) :
    compare first first' = compare second second' := by
  rcases lt_trichotomy first first' with below | same | above
  · rw [compare_lt_iff_lt.mpr below, compare_lt_iff_lt.mpr (less.mp below)]
  · have same' : second = second' := le_antisymm
        (not_lt.mp (fun lower => (more.mpr lower).ne same.symm))
        (not_lt.mp (fun lower => (less.mpr lower).ne same))
    rw [compare_eq_iff_eq.mpr same, compare_eq_iff_eq.mpr same']
  · rw [compare_gt_iff_gt.mpr above, compare_gt_iff_gt.mpr (more.mp above)]

theorem compare_div_mod
    (base first second : Nat)
    (positive : 0 < base) :
    compare first second = (compare (first / base) (second / base)).then
        (compare (first % base) (second % base)) := by
  have firstParts := Nat.div_add_mod first base
  have secondParts := Nat.div_add_mod second base
  have firstRemainder := Nat.mod_lt first positive
  have secondRemainder := Nat.mod_lt second positive
  rcases lt_trichotomy (first / base) (second / base) with
    less | same | more
  · have below : first < second := Nat.lt_of_div_lt_div less
    rw [Nat.compare_eq_lt.mpr less, Nat.compare_eq_lt.mpr below]
    rfl
  · rw [same, compare_eq_iff_eq.mpr rfl, Ordering.eq_then]
    rw [same] at firstParts
    rcases lt_trichotomy (first % base) (second % base) with
      lower | equal | higher
    · rw [Nat.compare_eq_lt.mpr lower]
      exact Nat.compare_eq_lt.mpr (by omega)
    · rw [Nat.compare_eq_eq.mpr equal]
      exact Nat.compare_eq_eq.mpr (by omega)
    · rw [Nat.compare_eq_gt.mpr higher]
      exact Nat.compare_eq_gt.mpr (by omega)
  · have above : second < first := Nat.lt_of_div_lt_div more
    rw [Nat.compare_eq_gt.mpr more, Nat.compare_eq_gt.mpr above]
    rfl

theorem toBeBytes_decided_mod
    (width first second : Nat) :
    DecidedBy (toBeBytes width first) (toBeBytes width second)
      (compare (first % 256 ^ width) (second % 256 ^ width)) := by
  induction width with
  | zero => simpa [toBeBytes, Nat.mod_one] using DecidedBy.nil
  | succ width ih =>
      have digits := DecidedBy.cons (UInt8.ofNat (first / 256 ^ width))
        (UInt8.ofNat (second / 256 ^ width))
        (fun _ => ih)
      rw [compare_byte, UInt8.toNat_ofNat', UInt8.toNat_ofNat'] at digits
      rw [compare_div_mod (256 ^ width) (first % 256 ^ (width + 1)) _
        (Nat.pow_pos (by decide))]
      rw [pow_succ, Nat.mod_mul_right_div_self, Nat.mod_mul_right_div_self,
        Nat.mod_mul_right_mod, Nat.mod_mul_right_mod]
      exact digits

theorem toBeBytes_decided
    {width first second : Nat}
    (firstFits : first < 256 ^ width)
    (secondFits : second < 256 ^ width) :
    DecidedBy (toBeBytes width first) (toBeBytes width second)
      (compare first second) := by
  have decided := toBeBytes_decided_mod width first second
  rwa [Nat.mod_eq_of_lt firstFits, Nat.mod_eq_of_lt secondFits] at decided

/-! ## Byte strings -/

/-- Escaped and terminated byte strings decide the strings' order. -/
theorem escape_decided
    (first second : Bytes) :
    DecidedBy (escape first ++ [Codes.NUL, Codes.NUL])
      (escape second ++ [Codes.NUL, Codes.NUL])
      (compare first second) := by
  induction first generalizing second with
  | nil =>
      cases second with
      | nil => exact DecidedBy.refl _
      | cons byte rest =>
          rw [List.compare_nil_cons]
          by_cases zero : byte = Codes.NUL
          · -- The escape marker is above the terminator's second byte.
            subst zero
            exact DecidedBy.sameTag _ (DecidedBy.ofTags _ _ (by decide) (by decide))
          · have below : compare Codes.NUL byte = .lt := by
              rw [compare_byte, Nat.compare_eq_lt]
              exact Nat.pos_of_ne_zero (fun none => zero (UInt8.toNat_inj.mp none))
            simpa [escape, zero] using DecidedBy.ofTags _ _ below (by decide)
  | cons byte rest ih =>
      cases second with
      | nil =>
          rw [List.compare_cons_nil]
          by_cases zero : byte = Codes.NUL
          · subst zero
            exact DecidedBy.sameTag _ (DecidedBy.ofTags _ _ (by decide) (by decide))
          · have above : compare byte Codes.NUL = .gt := by
              rw [compare_byte, Nat.compare_eq_gt]
              exact Nat.pos_of_ne_zero (fun none => zero (UInt8.toNat_inj.mp none))
            simpa [escape, zero] using DecidedBy.ofTags _ _ above (by decide)
      | cons byte' rest' =>
          rw [List.compare_cons_cons]
          have tails := ih rest'
          by_cases same : byte = byte'
          · subst same
            rw [Std.ReflOrd.compare_self, Ordering.eq_then]
            by_cases zero : byte = Codes.NUL
            · simpa [escape, zero] using DecidedBy.sameTag _ (DecidedBy.sameTag _ tails)
            · simpa [escape, zero] using DecidedBy.sameTag _ tails
          · -- Different bytes are different tags, escaped or not.
            have distinct : compare byte byte' ≠ .eq := by
              simpa using same
            have decided : ∀ first' second' : Bytes,
                  DecidedBy (byte :: first') (byte' :: second') (compare byte byte') :=
              fun first' second' => DecidedBy.ofTags first' second' rfl distinct
            have order : (compare byte byte').then (compare rest rest') =
                  compare byte byte' := by
              cases shape : compare byte byte' with
              | lt
              | gt => rfl
              | eq => exact absurd shape distinct
            rw [order]
            unfold escape
            split <;> split <;> exact decided _ _

theorem bytes_decided
    (first second : Bytes)
    (sameLength : first.length = second.length) :
    DecidedBy first second (compare first second) := by
  induction first generalizing second with
  | nil =>
      cases second with
      | nil => exact DecidedBy.nil
      | cons _ _ => simp at sameLength
  | cons byte rest ih =>
      cases second with
      | nil => simp at sameLength
      | cons byte' rest' =>
          rw [List.compare_cons_cons]
          exact DecidedBy.cons byte byte'
            (fun _ => ih rest' (by simpa using sameLength))

/-! ## Floats -/

variable {width : Nat} {magnitude : Nat} {first second : Nat}

theorem and_intMin_eq_zero_iff
    (bits : BitVec width) :
    bits &&& BitVec.intMin width = 0 ↔ bits.msb = false := by
  constructor
  · intro cleared
    have signs := congrArg BitVec.msb cleared
    cases width with
    | zero => simp [BitVec.msb, BitVec.getMsbD]
    | succ width => simpa [BitVec.msb_intMin] using signs
  · intro clear
    apply BitVec.eq_of_getLsbD_eq
    intro position small
    rw [BitVec.getLsbD_and, BitVec.getLsbD_intMin]
    by_cases last : position + 1 = width
    · have sign : position = width - 1 := by omega
      rw [BitVec.msb_eq_getLsbD_last, ← sign] at clear
      simp [clear]
    · simp [last]

theorem xor_intMin_toNat
    (bits : BitVec (width + 1))
    (clear : bits.msb = false) :
    (bits ^^^ BitVec.intMin (width + 1)).toNat = bits.toNat + 2 ^ width := by
  have disjoint := (and_intMin_eq_zero_iff bits).mpr clear
  have asSum : bits ^^^ BitVec.intMin (width + 1) =
        bits + BitVec.intMin (width + 1) := by
    rw [BitVec.add_eq_or_of_and_eq_zero _ _ disjoint]
    apply BitVec.eq_of_getLsbD_eq
    intro position small
    have bit := congrArg (fun value => value.getLsbD position) disjoint
    simp only [BitVec.getLsbD_and, BitVec.ofNat_eq_ofNat, BitVec.getLsbD_zero] at bit
    rw [BitVec.getLsbD_xor, BitVec.getLsbD_or]
    revert bit
    cases bits.getLsbD position <;>
      cases (BitVec.intMin (width + 1)).getLsbD position <;>
      decide
  rw [asSum, BitVec.toNat_add_of_and_eq_zero disjoint,
    BitVec.toNat_intMin, Nat.add_sub_cancel,
    Nat.mod_eq_of_lt (Nat.pow_lt_pow_right (by decide) (by omega))]

theorem floatToOrdered_toNat
    (bits : BitVec (width + 1)) :
    ((floatToOrdered bits).toNat : Int) = totalKey bits + 2 ^ width := by
  have small := bits.isLt
  have half : ((2 ^ width : Nat) : Int) = 2 ^ width := by push_cast; rfl
  have double : 2 ^ (width + 1) = 2 * 2 ^ width := by ring
  unfold floatToOrdered totalKey
  cases sign : bits.msb with
  | false =>
      rw [if_pos ((and_intMin_eq_zero_iff bits).mpr sign),
        xor_intMin_toNat bits sign, ← half]
      simp
  | true =>
      have set : ¬ bits &&& BitVec.intMin (width + 1) = 0 := by
        rw [and_intMin_eq_zero_iff, sign]
        decide
      rw [if_neg set, BitVec.toNat_not]
      simp only [Nat.add_sub_cancel, if_true, ← half]
      omega

theorem compare_floatToOrdered
    (first second : BitVec (width + 1)) :
    compare (floatToOrdered first).toNat (floatToOrdered second).toNat =
      totalCmp first second := by
  have firstKey := floatToOrdered_toNat first
  have secondKey := floatToOrdered_toNat second
  exact compare_congr (by omega) (by omega)

theorem toNat_and_ones
    (bits ones : BitVec (width + 1))
    (allOnes : ones.toNat = 2 ^ width - 1) :
    (bits &&& ones).toNat = bits.toNat % 2 ^ width := by
  rw [BitVec.toNat_and, allOnes, Nat.and_two_pow_sub_one_eq_mod]

theorem totalKey_lt
    (bits nan infinity : BitVec (width + 1))
    (positive : nan.msb = false)
    (above : infinity.toNat < nan.toNat)
    (finite : bits.toNat % 2 ^ width ≤ infinity.toNat) :
    totalKey bits < totalKey nan := by
  have half : ((2 ^ width : Nat) : Int) = 2 ^ width := by push_cast; rfl
  have signOf := BitVec.msb_eq_decide bits
  rw [Nat.add_sub_cancel] at signOf
  unfold totalKey
  rw [positive, Nat.add_sub_cancel, ← half]
  by_cases high : 2 ^ width ≤ bits.toNat
  · rw [signOf, decide_eq_true high]
    simp only [if_true, if_false, Bool.false_eq_true]
    omega
  · rw [Nat.mod_eq_of_lt (Nat.lt_of_not_le high)] at finite
    rw [signOf, decide_eq_false high]
    simp only [if_false, Bool.false_eq_true]
    omega

theorem F64.totalKey_lt_nan
    (value : F64)
    (number : F64.isNan value = false) :
    totalKey value < totalKey F64.nan := by
  apply totalKey_lt value F64.nan 0x7FF0000000000000#64
  · decide
  · decide
  · have masked := toNat_and_ones value 0x7FFFFFFFFFFFFFFF#64 rfl
    rw [← masked]
    simpa [F64.isNan, BitVec.not_lt, BitVec.le_def] using number

theorem F32.totalKey_lt_nan
    (value : F32)
    (number : F32.isNan value = false) :
    totalKey value < totalKey F32.nan := by
  apply totalKey_lt value F32.nan 0x7F800000#32
  · decide
  · decide
  · have masked := toNat_and_ones value 0x7FFFFFFF#32 rfl
    rw [← masked]
    simpa [F32.isNan, BitVec.not_lt, BitVec.le_def] using number

theorem compare_canonical
    {isNan : BitVec (width + 1) → Bool} {nan : BitVec (width + 1)}
    (above : ∀ bits, isNan bits = false → totalKey bits < totalKey nan)
    (first second : BitVec (width + 1)) :
    compare (floatToOrdered (if isNan first then nan else first)).toNat
        (floatToOrdered (if isNan second then nan else second)).toNat =
      floatCmp isNan first second := by
  rw [compare_floatToOrdered]
  unfold floatCmp totalCmp
  cases firstNan : isNan first with
  | true =>
      cases secondNan : isNan second with
      | true => simp
      | false => simpa using compare_gt_iff_gt.mpr (above second secondNan)
  | false =>
      cases secondNan : isNan second with
      | true => simpa using compare_lt_iff_lt.mpr (above first firstNan)
      | false => simp

theorem f64_decided
    (first second : F64) :
    DecidedBy (toBeBytes 8 (f64ToOrdered first).toNat)
      (toBeBytes 8 (f64ToOrdered second).toNat)
      (floatCmp F64.isNan first second) := by
  rw [← compare_canonical F64.totalKey_lt_nan]
  exact toBeBytes_decided (f64ToOrdered first).isLt (f64ToOrdered second).isLt

theorem f32_decided
    (first second : F32) :
    DecidedBy (toBeBytes 4 (f32ToOrdered first).toNat)
      (toBeBytes 4 (f32ToOrdered second).toNat)
      (floatCmp F32.isNan first second) := by
  rw [← compare_canonical F32.totalKey_lt_nan]
  exact toBeBytes_decided (f32ToOrdered first).isLt (f32ToOrdered second).isLt

theorem f32Elements_decided
    (first second : List F32)
    (sameLength : first.length = second.length) :
    DecidedBy (first.flatMap (fun element => toBeBytes 4 (f32ToOrdered element).toNat))
      (second.flatMap (fun element => toBeBytes 4 (f32ToOrdered element).toNat))
      (List.compareLex (floatCmp F32.isNan) first second) := by
  induction first generalizing second with
  | nil =>
      cases second with
      | nil => exact DecidedBy.nil
      | cons _ _ => simp at sameLength
  | cons element rest ih =>
      cases second with
      | nil => simp at sameLength
      | cons element' rest' =>
          rw [List.flatMap_cons, List.flatMap_cons, List.compareLex_cons_cons]
          exact DecidedBy.append (f32_decided element element')
            (fun _ => ih rest' (by simpa using sameLength))

theorem vector_decided
    (first second : List F32)
    (firstFits : first.length ≤ u32Max)
    (secondFits : second.length ≤ u32Max) :
    DecidedBy (toBeBytes 4 first.length ++ first.flatMap
        (fun element => toBeBytes 4 (f32ToOrdered element).toNat))
      (toBeBytes 4 second.length ++ second.flatMap
        (fun element => toBeBytes 4 (f32ToOrdered element).toNat))
      (Value.cmpVector first second) := by
  have below : u32Max < 256 ^ 4 := by decide
  exact DecidedBy.append (toBeBytes_decided (by omega) (by omega))
    (fun same => f32Elements_decided first second (Nat.compare_eq_eq.mp same))

/-! ## Integers -/

theorem magnitudeLen_bounds
    (nonzero : magnitude ≠ 0)
    (fits : magnitude < 2 ^ 64) :
    1 ≤ magnitudeLen magnitude ∧ magnitudeLen magnitude ≤ 8 ∧
      256 ^ (magnitudeLen magnitude - 1) ≤ magnitude ∧
      magnitude < 256 ^ magnitudeLen magnitude := by
  have bits : magnitude.log2 < 64 := (Nat.log2_lt nonzero).mpr fits
  have len : magnitudeLen magnitude = magnitude.log2 / 8 + 1 := by
    simp only [magnitudeLen, leadingZeros, nonzero, if_false]
    omega
  have bytes : ∀ count, 256 ^ count = 2 ^ (8 * count) := fun count => by
    simp [pow_mul]
  rw [len]
  refine ⟨by omega, by omega, ?_, ?_⟩
  · rw [Nat.add_sub_cancel, bytes]
    exact le_trans (Nat.pow_le_pow_right (by decide) (by omega))
      (Nat.log2_self_le nonzero)
  · rw [bytes]
    exact lt_of_lt_of_le Nat.lt_log2_self (Nat.pow_le_pow_right (by decide) (by omega))

theorem drop_toBeBytes
    (dropped width number : Nat) :
    (toBeBytes (dropped + width) number).drop dropped = toBeBytes width number := by
  induction dropped with
  | zero => simp
  | succ dropped ih =>
      rw [Nat.add_right_comm]
      exact ih

/-- The tag of a magnitude's word, above or below the zero code. -/
def intCode (negative : Bool) (magnitude : Nat) : UInt8 := if negative then
    Codes.INT_ZERO - UInt8.ofNat (magnitudeLen magnitude)
  else
    Codes.INT_ZERO + UInt8.ofNat (magnitudeLen magnitude)

theorem pushInt_nonzero
    (negative : Bool)
    (nonzero : magnitude ≠ 0)
    (fits : magnitude < 2 ^ 64) :
    pushInt (Direction.mask .asc) negative magnitude = intCode negative magnitude ::
        (toBeBytes (magnitudeLen magnitude) magnitude).map
          (fun byte => if negative then ~~~byte else byte) := by
  have bounds := magnitudeLen_bounds nonzero fits
  have digits := drop_toBeBytes (8 - magnitudeLen magnitude)
    (magnitudeLen magnitude) magnitude
  rw [Nat.sub_add_cancel bounds.2.1] at digits
  simp only [pushInt, nonzero, if_false, extend_ascMask, digits, intCode]

theorem intCode_false_toNat
    (nonzero : magnitude ≠ 0)
    (fits : magnitude < 2 ^ 64) :
    (intCode false magnitude).toNat = 0x15 + magnitudeLen magnitude := by
  have bounds := magnitudeLen_bounds nonzero fits
  simp only [intCode, Codes.INT_ZERO, UInt8.toNat_add, UInt8.toNat_ofNat',
    Bool.false_eq_true, if_false]
  have zeroCode : (0x15 : UInt8).toNat = 0x15 := rfl
  rw [zeroCode]
  omega

theorem intCode_true_toNat
    (nonzero : magnitude ≠ 0)
    (fits : magnitude < 2 ^ 64) :
    (intCode true magnitude).toNat = 0x15 - magnitudeLen magnitude := by
  have bounds := magnitudeLen_bounds nonzero fits
  simp only [intCode, Codes.INT_ZERO, UInt8.toNat_sub, UInt8.toNat_ofNat', if_true]
  have zeroCode : (0x15 : UInt8).toNat = 0x15 := rfl
  rw [zeroCode]
  omega

theorem lt_of_magnitudeLen_lt
    (firstNonzero : first ≠ 0)
    (secondNonzero : second ≠ 0)
    (firstFits : first < 2 ^ 64)
    (secondFits : second < 2 ^ 64)
    (shorter : magnitudeLen first < magnitudeLen second) :
    first < second := by
  have firstBounds := magnitudeLen_bounds firstNonzero firstFits
  have secondBounds := magnitudeLen_bounds secondNonzero secondFits
  calc
    first < 256 ^ magnitudeLen first := firstBounds.2.2.2
    _ ≤ 256 ^ (magnitudeLen second - 1) := Nat.pow_le_pow_right (by decide) (by omega)
    _ ≤ second := secondBounds.2.2.1

section

variable
  (negative : Bool)
  (firstNonzero : first ≠ 0)
  (secondNonzero : second ≠ 0)
  (firstFits : first < 2 ^ 64)
  (secondFits : second < 2 ^ 64)

include negative firstNonzero secondNonzero firstFits secondFits

theorem compare_intCode :
    compare (intCode negative first) (intCode negative second) =
      if negative then
        compare (magnitudeLen second) (magnitudeLen first)
      else
        compare (magnitudeLen first) (magnitudeLen second) := by
  have firstBounds := magnitudeLen_bounds firstNonzero firstFits
  have secondBounds := magnitudeLen_bounds secondNonzero secondFits
  rw [compare_byte]
  cases negative with
  | true =>
      rw [intCode_true_toNat firstNonzero firstFits,
        intCode_true_toNat secondNonzero secondFits, if_pos rfl]
      exact compare_congr (by omega) (by omega)
  | false =>
      rw [intCode_false_toNat firstNonzero firstFits,
        intCode_false_toNat secondNonzero secondFits, if_neg Bool.false_ne_true]
      exact compare_congr (by omega) (by omega)

/-- Magnitudes of one sign are decided by their words. -/
theorem magnitude_decided :
    DecidedBy (pushInt (Direction.mask .asc) negative first)
      (pushInt (Direction.mask .asc) negative second)
      (if negative then compare second first
        else compare first second) := by
  have codes := compare_intCode negative firstNonzero secondNonzero firstFits secondFits
  have firstBounds := magnitudeLen_bounds firstNonzero firstFits
  have secondBounds := magnitudeLen_bounds secondNonzero secondFits
  rw [pushInt_nonzero negative firstNonzero firstFits,
    pushInt_nonzero negative secondNonzero secondFits]
  rcases lt_trichotomy (magnitudeLen first) (magnitudeLen second) with
    shorter | same | longer
  · have less := lt_of_magnitudeLen_lt firstNonzero secondNonzero
      firstFits secondFits shorter
    rw [Nat.compare_eq_gt.mpr shorter, Nat.compare_eq_lt.mpr shorter] at codes
    rw [Nat.compare_eq_gt.mpr less, Nat.compare_eq_lt.mpr less]
    exact DecidedBy.ofTags _ _ codes (by cases negative <;> decide)
  · have tags : intCode negative first = intCode negative second := by
      simp only [intCode, same]
    have digits := toBeBytes_decided (same ▸ firstBounds.2.2.2) secondBounds.2.2.2
    rw [tags, same]
    apply DecidedBy.sameTag
    cases negative with
    | false => simpa using digits
    | true =>
        have complemented := digits.reversed complement_reverses
        rw [Std.OrientedOrd.eq_swap (a := second)]
        simpa using complemented
  · have more := lt_of_magnitudeLen_lt secondNonzero firstNonzero
      secondFits firstFits longer
    rw [Nat.compare_eq_gt.mpr longer, Nat.compare_eq_lt.mpr longer] at codes
    rw [Nat.compare_eq_gt.mpr more, Nat.compare_eq_lt.mpr more]
    exact DecidedBy.ofTags _ _ codes (by cases negative <;> decide)

end

theorem pushInt_tag
    (number : Int)
    (fits : number.natAbs < 2 ^ 64) :
    ∃ tag rest, pushInt (Direction.mask .asc) (number < 0) number.natAbs = tag :: rest ∧
      (tag.toNat < 0x15 ↔ number < 0) ∧
      (0x15 < tag.toNat ↔ 0 < number) ∧
      0x0D ≤ tag.toNat ∧ tag.toNat ≤ 0x1D := by
  by_cases zero : number = 0
  · subst zero
    exact ⟨Codes.INT_ZERO, [], rfl, by decide, by decide, by decide,
      by decide⟩
  · have nonzero : number.natAbs ≠ 0 := Int.natAbs_ne_zero.mpr zero
    have bounds := magnitudeLen_bounds nonzero fits
    refine ⟨_, _, pushInt_nonzero _ nonzero fits, ?_⟩
    by_cases negative : number < 0
    · rw [decide_eq_true negative, intCode_true_toNat nonzero fits]
      omega
    · rw [decide_eq_false negative, intCode_false_toNat nonzero fits]
      omega

/-- Integers are decided by their words, across signs and lengths. -/
theorem int_decided
    (first second : Int)
    (firstFits : first.natAbs < 2 ^ 64)
    (secondFits : second.natAbs < 2 ^ 64) :
    DecidedBy (pushInt (Direction.mask .asc) (first < 0) first.natAbs)
      (pushInt (Direction.mask .asc) (second < 0) second.natAbs)
      (compare first second) := by
  by_cases bothNegative : first < 0 ∧ second < 0
  · have decided := magnitude_decided true (Int.natAbs_ne_zero.mpr bothNegative.1.ne)
      (Int.natAbs_ne_zero.mpr bothNegative.2.ne) firstFits secondFits
    have order : compare first second = compare second.natAbs first.natAbs :=
      compare_congr (by omega) (by omega)
    rw [decide_eq_true bothNegative.1, decide_eq_true bothNegative.2, order]
    simpa using decided
  · by_cases bothPositive : 0 < first ∧ 0 < second
    · have decided := magnitude_decided false
        (Int.natAbs_ne_zero.mpr bothPositive.1.ne.symm)
        (Int.natAbs_ne_zero.mpr bothPositive.2.ne.symm)
        firstFits secondFits
      have order : compare first second = compare first.natAbs second.natAbs :=
        compare_congr (by omega) (by omega)
      rw [decide_eq_false (by omega : ¬ first < 0),
        decide_eq_false (by omega : ¬ second < 0), order]
      simpa using decided
    · by_cases bothZero : first = second
      · subst bothZero
        rw [Std.ReflOrd.compare_self]
        exact DecidedBy.refl _
      · -- The signs differ, so the tags lie on different sides of zero's.
        obtain ⟨tag, rest, word, below, above, -⟩ := pushInt_tag first firstFits
        obtain ⟨tag', rest', word', below', above', -⟩ := pushInt_tag second secondFits
        rw [word, word']
        apply DecidedBy.ofTags
        · rw [compare_byte]
          exact compare_congr (by omega) (by omega)
        · simpa using bothZero

end SlateOrm
