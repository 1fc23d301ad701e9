import SlateOrm.TupleCanonical

namespace SlateOrm

/-!
# Double arithmetic

The IEEE 754 operations on doubles, as round-to-nearest-even of the exact
result.  Every finite double is a whole number of `2 ^ -1074`, so exact results
are ratios of natural numbers.
-/

namespace F64

def positiveInfinity : F64 := 0x7FF0000000000000#64
def signBit : F64 := 0x8000000000000000#64
def positiveZero : F64 := 0#64
def negativeZero : F64 := signBit
def one : F64 := 0x3FF0000000000000#64

/-- A double with the given sign and the magnitude of the given bits. -/
def withSign (negative : Bool) (magnitude : F64) : F64 :=
  if negative then magnitude ||| signBit else magnitude

/-- Whether a double is one of the two infinities. -/
def isInfinite (value : F64) : Bool :=
  value &&& 0x7FFFFFFFFFFFFFFF#64 == positiveInfinity

/-- Whether a double is one of the two zeros. -/
def isZero (value : F64) : Bool := value &&& 0x7FFFFFFFFFFFFFFF#64 == 0#64

/-- The magnitude of a finite double, in units of `2 ^ -1074`. -/
def units (value : F64) : Nat :=
  let exponent := value.toNat / 2 ^ 52 % 2 ^ 11
  let fraction := value.toNat % 2 ^ 52
  if exponent = 0 then
    fraction
  else
    (2 ^ 52 + fraction) * 2 ^ (exponent - 1)

/-- A finite double, in units of `2 ^ -1074`. -/
def signedUnits (value : F64) : Int :=
  if value.msb then -(units value : Int) else units value

/-- The nearest whole number to a ratio, the even one of two. -/
def roundHalfEven (numerator denominator : Nat) : Nat :=
  let quotient := numerator / denominator
  let remainder := numerator % denominator
  if 2 * remainder < denominator then
    quotient
  else if denominator < 2 * remainder then
    quotient + 1
  else
    quotient + quotient % 2

/-- The largest power of two that is at most a positive ratio. -/
def ratioLog2 (numerator denominator : Nat) : Int :=
  let estimate := (numerator.log2 : Int) - denominator.log2
  if denominator * 2 ^ estimate.toNat ≤ numerator * 2 ^ (-estimate).toNat then
    estimate
  else
    estimate - 1

/-- The double nearest to a ratio, the even one of two. -/
def ofRatio (negative : Bool) (numerator denominator : Nat) : F64 :=
  if numerator = 0 then
    withSign negative positiveZero
  else
    let ulp := max (ratioLog2 numerator denominator - 52) (-1074)
    let significand := roundHalfEven
        (numerator * 2 ^ (-ulp).toNat) (denominator * 2 ^ ulp.toNat)
    -- A significand that rounds up to the next power carries by itself.
    let bits := (ulp + 1074).toNat * 2 ^ 52 + significand
    withSign negative (if positiveInfinity.toNat ≤ bits then
        positiveInfinity
      else
        BitVec.ofNat 64 bits)

/-- `v as f64` for an integer. -/
def ofInt (number : Int) : F64 := ofRatio (number < 0) number.natAbs 1

/-- `-x`. -/
def neg (value : F64) : F64 := value ^^^ signBit

/-- `x + y`. -/
def add (first second : F64) : F64 := if isNan first || isNan second then
    nan
  else if isInfinite first then
    if isInfinite second && first != second then nan else first
  else if isInfinite second then
    second
  else
    let sum := signedUnits first + signedUnits second
    if sum = 0 then
      withSign (first.msb && second.msb) positiveZero
    else
      ofRatio (sum < 0) sum.natAbs (2 ^ 1074)

/-- `x - y`. -/
def sub (first second : F64) : F64 :=
  if isNan first || isNan second then nan else add first (neg second)

/-- `x * y`. -/
def mul (first second : F64) : F64 := if isNan first || isNan second then
    nan
  else if isInfinite first || isInfinite second then
    if isZero first || isZero second then
      nan
    else
      withSign (first.msb != second.msb) positiveInfinity
  else
    ofRatio (first.msb != second.msb) (units first * units second) (2 ^ 2148)

/-- `x / y`. -/
def div (first second : F64) : F64 := if isNan first || isNan second then
    nan
  else
    let negative := first.msb != second.msb
    if isInfinite first then
      if isInfinite second then nan else withSign negative positiveInfinity
    else if isInfinite second then
      withSign negative positiveZero
    else if isZero second then
      if isZero first then nan else withSign negative positiveInfinity
    else
      ofRatio negative (units first) (units second)

/-- `x.sqrt()`. -/
def sqrt (value : F64) : F64 := if isNan value then
    nan
  else if isZero value then
    value
  else if value.msb then
    nan
  else if isInfinite value then
    value
  else
    -- A root that is not exact lies strictly between two neighbours, and half
    -- a step above the lower one rounds as it does.
    let scaled := units value * 4 ^ 128
    let root := Nat.sqrt scaled
    let sticky := if root * root = scaled then 0 else 1
    ofRatio false (2 * root + sticky) (2 ^ (537 + 129))

/-- `x > 0.0`. -/
def isPositive (value : F64) : Bool := !isNan value && !value.msb && !isZero value

/-- `x.round() as i64`: half away from zero, saturating. -/
def roundToI64 (value : F64) : Int64 :=
  let magnitude : Nat := if isInfinite value then
      2 ^ 63
    else
      (2 * units value + 2 ^ 1074) / 2 ^ 1075
  let number : Int := if value.msb then -(magnitude : Int) else magnitude
  Int64.ofInt (max (-2 ^ 63) (min (2 ^ 63 - 1) number))

/-- The sum of a list of doubles, from negative zero on. -/
def sum (values : List F64) : F64 := values.foldl add negativeZero

/-- `f64::from(x)` for a 32-bit float. -/
def ofF32 (value : F32) : F64 := if F32.isNan value then
    nan
  else if value &&& 0x7FFFFFFF#32 == 0x7F800000#32 then
    withSign value.msb positiveInfinity
  else
    let exponent := value.toNat / 2 ^ 23 % 2 ^ 8
    let fraction := value.toNat % 2 ^ 23
    -- In units of `2 ^ -149`.
    let magnitude := if exponent = 0 then
        fraction
      else
        (2 ^ 23 + fraction) * 2 ^ (exponent - 1)
    ofRatio value.msb magnitude (2 ^ 149)

example : add one one = 0x4000000000000000#64 := by
  decide +kernel

example : div one (ofInt 3) = 0x3FD5555555555555#64 := by
  decide +kernel

/-! ## NaN payloads -/

/-- An operation that answers with a NaN when it is given one. -/
structure Absorbs (operation : F64 → F64 → F64) : Prop where
  left : ∀ first second, isNan first = true → operation first second = nan
  right : ∀ first second, isNan second = true → operation first second = nan

theorem canonical_of_number
    {value : F64}
    (number : isNan value = false) :
    canonical value = value := by
  simp [canonical, number]

theorem Absorbs.canonical
    {operation : F64 → F64 → F64} (absorbs : Absorbs operation)
    (first second : F64) :
    operation (F64.canonical first) (F64.canonical second) =
      operation first second := by
  cases unordered : isNan first with
  | true =>
      rw [absorbs.left _ _ unordered,
        absorbs.left _ _ ((isNan_canonical first).trans unordered)]
  | false =>
      rw [canonical_of_number unordered]
      cases unordered' : isNan second with
      | true =>
          rw [absorbs.right _ _ unordered',
            absorbs.right _ _ ((isNan_canonical second).trans unordered')]
      | false => rw [canonical_of_number unordered']

theorem add_absorbs : Absorbs add where
  left := by
    intro first second unordered
    rw [add, unordered, Bool.true_or, if_pos rfl]
  right := by
    intro first second unordered
    rw [add, unordered, Bool.or_true, if_pos rfl]

theorem sub_absorbs : Absorbs sub where
  left := by
    intro first second unordered
    rw [sub, unordered, Bool.true_or, if_pos rfl]
  right := by
    intro first second unordered
    rw [sub, unordered, Bool.or_true, if_pos rfl]

theorem mul_absorbs : Absorbs mul where
  left := by
    intro first second unordered
    rw [mul, unordered, Bool.true_or, if_pos rfl]
  right := by
    intro first second unordered
    rw [mul, unordered, Bool.or_true, if_pos rfl]

theorem div_absorbs : Absorbs div where
  left := by
    intro first second unordered
    rw [div, unordered, Bool.true_or, if_pos rfl]
  right := by
    intro first second unordered
    rw [div, unordered, Bool.or_true, if_pos rfl]

theorem ofF32_canonical
    (value : F32) :
    ofF32 value.canonical = ofF32 value := by
  cases unordered : F32.isNan value with
  | true => rw [ofF32, ofF32, F32.isNan_canonical, unordered, if_pos rfl, if_pos rfl]
  | false => simp [F32.canonical, unordered]

end F64

end SlateOrm
