import SlateOrm.TupleOrder

namespace SlateOrm

open List

/-!
# Canonical values

Two values that compare as equal need not be the same value: a small number
may be held signed or unsigned, and a NaN may carry any payload.  The canonical
form picks one of each.  Values are equal exactly when their canonical forms
are the same, so a function that cannot tell a value from its canonical form
respects equality.
-/

namespace F64

/-- A double with its NaN payload dropped. -/
def canonical (value : F64) : F64 := if isNan value then nan else value

end F64

namespace F32

/-- A 32-bit float with its NaN payload dropped. -/
def canonical (value : F32) : F32 := if isNan value then nan else value

end F32

/-! ## Floats -/

theorem totalKey_injective
    {width : Nat} {first second : BitVec (width + 1)}
    (same : totalKey first = totalKey second) :
    first = second := by
  have double : 2 ^ (width + 1) = 2 * 2 ^ width := by ring
  have half : ((2 ^ width : Nat) : Int) = 2 ^ width := by push_cast; rfl
  have signOf := BitVec.msb_eq_decide first
  have signOf' := BitVec.msb_eq_decide second
  have small := first.isLt
  have small' := second.isLt
  unfold totalKey at same
  rw [signOf, signOf', Nat.add_sub_cancel, ← half] at same
  apply BitVec.eq_of_toNat_eq
  simp only [decide_eq_true_eq] at same
  split at same <;> split at same <;> omega

theorem floatCmp_canonical
    {width : Nat} {isNan : BitVec width → Bool} {nan : BitVec width}
    (isNanNan : isNan nan = true)
    (first second : BitVec width) :
    floatCmp isNan (if isNan first then nan else first) second =
        floatCmp isNan first second ∧
      floatCmp isNan second (if isNan first then nan else first) =
        floatCmp isNan second first := by
  cases unordered : isNan first with
  | true =>
      cases unordered' : isNan second <;>
        simp [floatCmp, unordered, unordered', isNanNan]
  | false => simp

theorem canonical_eq_of_floatCmp
    {width : Nat} {isNan : BitVec (width + 1) → Bool} {nan : BitVec (width + 1)}
    {first second : BitVec (width + 1)}
    (equal : floatCmp isNan first second = .eq) :
    (if isNan first then nan else first) = (if isNan second then nan else second) := by
  unfold floatCmp at equal
  cases unordered : isNan first <;>
    cases unordered' : isNan second <;>
    simp only [unordered, unordered', reduceCtorEq] at equal
  · have keys := compare_eq_iff_eq.mp equal
    simpa using totalKey_injective keys
  · simp

theorem floatCmp_self
    {width : Nat} (isNan : BitVec width → Bool) (value : BitVec width) :
    floatCmp isNan value value = .eq := by
  unfold floatCmp
  cases isNan value
  · simp [totalCmp]
  · rfl

@[simp] theorem F64.isNan_nan :
    F64.isNan F64.nan = true := by
  decide

@[simp] theorem F32.isNan_nan :
    F32.isNan F32.nan = true := by
  decide

@[simp] theorem F64.isNan_canonical
    (value : F64) :
    F64.isNan (F64.canonical value) = F64.isNan value := by
  unfold F64.canonical
  split <;> simp [*]

@[simp] theorem F64.canonical_canonical
    (value : F64) :
    F64.canonical (F64.canonical value) = F64.canonical value := by
  simp only [F64.canonical]
  split <;> simp [*]

@[simp] theorem F32.isNan_canonical
    (value : F32) :
    F32.isNan (F32.canonical value) = F32.isNan value := by
  unfold F32.canonical
  split <;> simp [*]

theorem compareLex_canonical
    (first second : List F32) :
    List.compareLex (floatCmp F32.isNan) (first.map F32.canonical) second =
        List.compareLex (floatCmp F32.isNan) first second ∧
      List.compareLex (floatCmp F32.isNan) second (first.map F32.canonical) =
        List.compareLex (floatCmp F32.isNan) second first := by
  induction first generalizing second with
  | nil => simp
  | cons element rest ih =>
      cases second with
      | nil => exact ⟨rfl, rfl⟩
      | cons element' rest' =>
          obtain ⟨left, right⟩ := floatCmp_canonical F32.isNan_nan element element'
          obtain ⟨lefts, rights⟩ := ih rest'
          simp only [map_cons, List.compareLex_cons_cons,
            F32.canonical, left, right] at lefts rights ⊢
          simp [lefts, rights]

theorem map_canonical_eq_of_compareLex
    {first second : List F32}
    (equal : List.compareLex (floatCmp F32.isNan) first second = .eq) :
    first.map F32.canonical = second.map F32.canonical := by
  induction first generalizing second with
  | nil =>
      cases second with
      | nil => rfl
      | cons _ _ => cases equal
  | cons element rest ih =>
      cases second with
      | nil => cases equal
      | cons element' rest' =>
          rw [List.compareLex_cons_cons, Ordering.then_eq_eq] at equal
          have head : F32.canonical element = F32.canonical element' :=
            canonical_eq_of_floatCmp equal.1
          simp [head, ih equal.2]

/-! ## Values -/

namespace Value

/-- The one form of an integer: signed where it fits. -/
def ofI128 (number : Int) : Value :=
  match TupleReader.tryI64 number with
  | some value => i64 value
  | none => u64 (UInt64.ofNat number.toNat)

mutual

/-- The one form that equal values share. -/
def canonical : Value → Value
  | null => null
  | bool value => bool value
  | bytes value => bytes value
  | str text => str text
  | i64 value => i64 value
  | u64 value => ofI128 value.toNat
  | f64 value => f64 (F64.canonical value)
  | decimal units => decimal units
  | uuid value => uuid value
  | vector elements => vector (elements.map F32.canonical)
  | array elements => array (canonicalList elements)

/-- The canonical forms of a list of values. -/
def canonicalList : List Value → List Value
  | [] => []
  | value :: rest => canonical value :: canonicalList rest

end

theorem canonicalList_eq_map
    (values : List Value) :
    canonicalList values = values.map canonical := by
  induction values with
  | nil => rfl
  | cons value rest ih => simp [canonicalList, ih]

theorem ofI128_toNat
    (value : UInt64) :
    (∃ signed : Int64, ofI128 value.toNat = i64 signed ∧ signed.toInt = value.toNat) ∨
      ofI128 value.toNat = u64 value ∧ 2 ^ 63 ≤ value.toNat := by
  by_cases small : value.toNat < 2 ^ 63
  · refine .inl ⟨Int64.ofInt value.toNat, ?_, ?_⟩
    · rw [ofI128, TupleReader.tryI64, if_pos ⟨by omega, by omega⟩]
    · exact Int64.toInt_ofInt_of_le (by omega) (by omega)
  · refine .inr ⟨?_, by omega⟩
    rw [ofI128, TupleReader.tryI64, if_neg (fun bound => by omega)]
    simp

theorem canonical_u64
    (value : UInt64) :
    canonical (u64 value) = ofI128 value.toNat := rfl

theorem asI128_canonical
    (value : Value) :
    value.canonical.asI128 = value.asI128 := by
  cases value with
  | u64 value =>
      rcases ofI128_toNat value with ⟨signed, same, number⟩ | ⟨same, -⟩
      · rw [canonical_u64, same, asI128, asI128, number]
      · rw [canonical_u64, same]
  | _ => rfl

@[simp] theorem classRank_canonical
    (value : Value) :
    value.canonical.classRank = value.classRank := by
  cases value with
  | u64 value =>
      rcases ofI128_toNat value with ⟨signed, same, -⟩ | ⟨same, -⟩
      · rw [canonical_u64, same, classRank, classRank]
      · rw [canonical_u64, same]
  | _ => rfl

@[simp] theorem isNull_canonical
    (value : Value) :
    value.canonical.isNull = value.isNull := by
  cases value with
  | u64 value =>
      rcases ofI128_toNat value with ⟨signed, same, -⟩ | ⟨same, -⟩
      · rw [canonical_u64, same]
        rfl
      · rw [canonical_u64, same]
  | _ => rfl

theorem cmp_canonical_of_forall
    {elements : List Value}
    (each : ∀ value ∈ elements, ∀ other, cmp value.canonical other = cmp value other ∧
        cmp other value.canonical = cmp other value)
    (others : List Value) :
    cmpList (canonicalList elements) others = cmpList elements others ∧
      cmpList others (canonicalList elements) = cmpList others elements := by
  induction elements generalizing others with
  | nil => exact ⟨rfl, rfl⟩
  | cons value rest ih =>
      cases others with
      | nil => exact ⟨rfl, rfl⟩
      | cons other others =>
          obtain ⟨left, right⟩ := each value (mem_cons_self ..) other
          obtain ⟨lefts, rights⟩ := ih (fun element member => each element
            (mem_cons_of_mem _ member)) others
          simp only [canonicalList, cmpList, left, right, lefts, rights, and_self]

theorem cmp_canonical_of_asI128
    {value : Value} {number : Int}
    (widened : value.asI128 = some number)
    (other : Value) :
    cmp value.canonical other = cmp value other ∧
      cmp other value.canonical = cmp other value := by
  have widened' := (asI128_canonical value).trans widened
  cases others : other.asI128 with
  | some number' =>
      rw [cmp_of_asI128 widened' others, cmp_of_asI128 widened others,
        cmp_of_asI128 others widened', cmp_of_asI128 others widened]
      exact ⟨rfl, rfl⟩
  | none =>
      have different : value.classRank ≠ other.classRank := by
        cases value <;> simp only [asI128, reduceCtorEq] at widened <;>
          cases other <;> simp_all [asI128, classRank]
      rw [cmp_of_classRank_ne (by simpa using different), cmp_of_classRank_ne different,
        cmp_of_classRank_ne (by simpa using different.symm),
        cmp_of_classRank_ne different.symm]
      simp

theorem cmp_canonical
    (value other : Value) :
    cmp value.canonical other = cmp value other ∧
      cmp other value.canonical = cmp other value := by
  induction value using Value.induction generalizing other with
  | scalar value notArray =>
      cases value with
      | i64 value
      | u64 value => exact cmp_canonical_of_asI128 rfl other
      | f64 value =>
          cases other with
          | f64 other => exact floatCmp_canonical F64.isNan_nan value other
          | _ => exact ⟨rfl, rfl⟩
      | vector elements =>
          cases other with
          | vector others =>
              obtain ⟨left, right⟩ := compareLex_canonical elements others
              simp only [canonical, cmp_vector, cmpVector, length_map,
                left, right, and_self]
          | _ => exact ⟨rfl, rfl⟩
      | array elements => exact absurd rfl (notArray elements)
      | _ => exact ⟨rfl, rfl⟩
  | ofArray elements ih =>
      cases other with
      | array others => exact cmp_canonical_of_forall ih others
      | _ => exact ⟨rfl, rfl⟩

@[simp] theorem cmp_canonical_left
    (value other : Value) :
    cmp value.canonical other = cmp value other :=
  (cmp_canonical value other).1

@[simp] theorem cmp_canonical_right
    (value other : Value) :
    cmp other value.canonical = cmp other value :=
  (cmp_canonical value other).2

theorem cmpList_self_of_forall
    {elements : List Value}
    (each : ∀ value ∈ elements, cmp value value = .eq) :
    cmpList elements elements = .eq := by
  induction elements with
  | nil => rfl
  | cons value rest ih =>
      rw [cmpList, each value (mem_cons_self ..), ih
        (fun other member => each other (mem_cons_of_mem _ member))]
      rfl

theorem compareLex_self
    (elements : List F32) :
    List.compareLex (floatCmp F32.isNan) elements elements = .eq := by
  induction elements with
  | nil => rfl
  | cons element rest ih =>
      rw [List.compareLex_cons_cons, floatCmp_self, ih]
      rfl

/-- Every value compares as equal to itself. -/
@[simp] theorem cmp_self
    (value : Value) :
    cmp value value = .eq := by
  induction value using Value.induction with
  | scalar value notArray =>
      cases value with
      | i64 value
      | u64 value =>
          rw [cmp_of_asI128 rfl rfl]
          exact compare_eq_iff_eq.mpr rfl
      | f64 value => exact floatCmp_self F64.isNan value
      | vector elements =>
          rw [cmp_vector, cmpVector, compareLex_self, Nat.compare_eq_eq.mpr rfl]
          rfl
      | array elements => exact absurd rfl (notArray elements)
      | bool value => exact compare_eq_iff_eq.mpr rfl
      | bytes value =>
          rw [cmp_bytes]
          exact Std.ReflCmp.compare_self
      | str text =>
          rw [cmp_str]
          exact Std.ReflCmp.compare_self
      | decimal units => exact compare_eq_iff_eq.mpr rfl
      | uuid value =>
          rw [cmp_uuid]
          exact Std.ReflCmp.compare_self
      | null => rfl
  | ofArray elements ih => exact cmpList_self_of_forall ih

theorem canonical_of_asI128
    {value : Value} {number : Int}
    (widened : value.asI128 = some number) :
    value.canonical = ofI128 number := by
  cases value with
  | i64 value =>
      obtain rfl := Option.some.inj widened
      have low := value.le_toInt
      have high := value.toInt_lt
      rw [canonical, ofI128, TupleReader.tryI64, if_pos ⟨low, high⟩]
      simp
  | u64 value =>
      obtain rfl := Option.some.inj widened
      exact canonical_u64 value
  | _ => cases widened

theorem canonicalList_eq_of_forall
    {first second : List Value}
    (each : ∀ value ∈ first, ∀ other,
      cmp value other = .eq → value.canonical = other.canonical)
    (equal : cmpList first second = .eq) :
    canonicalList first = canonicalList second := by
  induction first generalizing second with
  | nil =>
      cases second with
      | nil => rfl
      | cons _ _ => cases equal
  | cons value rest ih =>
      cases second with
      | nil => cases equal
      | cons value' rest' =>
          rw [cmpList, Ordering.then_eq_eq] at equal
          have head := each value (mem_cons_self ..) value' equal.1
          have tail := ih (fun other member => each other (mem_cons_of_mem _ member))
            equal.2
          rw [canonicalList, canonicalList, head, tail]

theorem canonical_eq_of_classRank_eq
    {first second : Value}
    (notArray : ∀ elements, first ≠ array elements)
    (sameClass : first.classRank = second.classRank)
    (equal : cmp first second = .eq) :
    first.canonical = second.canonical := by
  cases ofOneClass notArray sameClass with
  | null => rfl
  | bool first second => rw [compare_eq_iff_eq.mp equal]
  | bytes first second => rw [Std.LawfulEqOrd.eq_of_compare equal]
  | str first second => rw [utf8_injective (Std.LawfulEqOrd.eq_of_compare equal)]
  | whole widened widened' =>
      rw [cmp_of_asI128 widened widened'] at equal
      rw [canonical_of_asI128 widened, canonical_of_asI128 widened',
        compare_eq_iff_eq.mp equal]
  | f64 first second => exact congrArg f64 (canonical_eq_of_floatCmp equal)
  | decimal first second => rw [Int64.toInt_inj.mp (compare_eq_iff_eq.mp equal)]
  | uuid first second =>
      have bytes := Std.LawfulEqOrd.eq_of_compare equal
      cases first
      cases second
      simp_all
  | vector first second =>
      rw [cmp_vector, cmpVector, Ordering.then_eq_eq] at equal
      exact congrArg vector (map_canonical_eq_of_compareLex equal.2)

theorem canonical_eq_of_cmp_eq
    {first second : Value}
    (equal : cmp first second = .eq) :
    first.canonical = second.canonical := by
  induction first using Value.induction generalizing second with
  | scalar first notArray =>
      by_cases sameClass : first.classRank = second.classRank
      · exact canonical_eq_of_classRank_eq notArray sameClass equal
      · rw [cmp_of_classRank_ne sameClass] at equal
        exact absurd (Nat.compare_eq_eq.mp equal) sameClass
  | ofArray elements ih =>
      cases second with
      | array others =>
          exact congrArg array (canonicalList_eq_of_forall
            (fun value member _ => ih value member) equal)
      | _ => cases equal

theorem cmp_eq_iff_canonical
    (first second : Value) :
    cmp first second = .eq ↔ first.canonical = second.canonical := by
  constructor
  · exact canonical_eq_of_cmp_eq
  · intro same
    rw [← cmp_canonical_left, ← cmp_canonical_right, same, cmp_self]

theorem beq_iff_canonical
    (first second : Value) :
    (first == second) = true ↔ first.canonical = second.canonical := by
  rw [← cmp_eq_iff_canonical]
  simp [BEq.beq]

theorem beq_list_iff_canonical
    (first second : List Value) :
    (first == second) = true ↔ first.map canonical = second.map canonical := by
  induction first generalizing second with
  | nil => cases second <;> simp
  | cons value rest ih =>
      cases second with
      | nil => simp
      | cons value' rest' =>
          rw [cons_beq_cons, Bool.and_eq_true, beq_iff_canonical, ih]
          simp

@[simp] theorem canonical_canonical
    (value : Value) :
    value.canonical.canonical = value.canonical := by
  apply canonical_eq_of_cmp_eq
  simp

end Value

/-! ## Encodings -/

namespace Value

theorem cutList_eq_map
    (values : List Value) :
    cutList values = values.map cut := by
  induction values with
  | nil => rfl
  | cons value rest ih => simp [cutList, ih]

theorem cut_canonical
    (value : Value) :
    value.canonical.cut = value.cut.canonical := by
  induction value using Value.induction with
  | scalar value notArray =>
      cases value with
      | u64 value =>
          rcases ofI128_toNat value with ⟨signed, same, -⟩ | ⟨same, -⟩
          · rw [cut, canonical_u64, same]
            rfl
          · rw [cut, canonical_u64, same]
            rfl
      | vector elements => simp [canonical, cut, map_take]
      | array elements => exact absurd rfl (notArray elements)
      | _ => rfl
  | ofArray elements ih =>
      simp only [canonical, cut, canonicalList_eq_map, cutList_eq_map,
        map_map, array.injEq]
      exact map_congr_left ih

end Value

theorem encodeValue_eq_iff
    (direction : Direction) (first second : Value) :
    encodeValue direction first = encodeValue direction second ↔
      first.cut.canonical = second.cut.canonical := by
  have decided := encodeValue_direction_decided direction first second
  rw [← Value.cmp_eq_iff_canonical]
  rw [← Std.LawfulEqOrd.compare_eq_iff_eq, decided.compare_eq]
  cases direction <;> simp [Direction.order]

@[simp] theorem encodeValue_canonical
    (direction : Direction) (value : Value) :
    encodeValue direction value.canonical = encodeValue direction value := by
  rw [encodeValue_eq_iff, Value.cut_canonical, Value.canonical_canonical]

@[simp] theorem encodeWith_canonical
    (values : List Value) (directions : List Direction) :
    encodeWith (values.map Value.canonical) directions =
      encodeWith values directions := by
  induction values generalizing directions with
  | nil => rfl
  | cons value rest ih => simp [encodeWith, ih]

end SlateOrm
