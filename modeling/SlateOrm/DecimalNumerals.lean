import SlateOrm.TextLines
import Mathlib.Algebra.Order.Field.Rat
import Mathlib.Tactic.FieldSimp
import Mathlib.Tactic.Linarith
import Mathlib.Tactic.Positivity
import Mathlib.Tactic.Ring

namespace SlateOrm

open List

/-!
# Decimal numerals

A decimal numeral is digits before and after a point, with a sign before them,
and it denotes a rational number.  What it denotes is a count of tenths of any
power when the digits past that power are zeros, and the count is then spelled
by the other digits.
-/

/-! ## Digits -/

/-- The number that digits spell. -/
def digitsNumber (digits : List Char) : Nat := Nat.ofDigitChars 10 digits 0

@[simp]
theorem digitsNumber_nil :
    digitsNumber [] = 0 :=
  rfl

@[simp]
theorem digitsNumber_replicate_zero
    (count : Nat) :
    digitsNumber (replicate count '0') = 0 := by
  simp [digitsNumber]

theorem digitsNumber_append
    (first second : List Char) :
    digitsNumber (first ++ second) =
      digitsNumber first * 10 ^ second.length + digitsNumber second := by
  rw [digitsNumber, Nat.ofDigitChars_append,
    Nat.ofDigitChars_eq_ofDigitChars_zero, Nat.mul_comm]
  rfl

theorem toNat_sub_lt_of_isDigit
    {char : Char}
    (isDigit : char.isDigit = true) :
    char.toNat - '0'.toNat < 10 := by
  have within : 48 ≤ char.toNat ∧ char.toNat ≤ 57 := Char.isDigit_iff_toNat.mp isDigit
  have zero : '0'.toNat = 48 := rfl
  omega

theorem digitsNumber_lt
    {digits : List Char}
    (all : ∀ char ∈ digits, char.isDigit = true) :
    digitsNumber digits < 10 ^ digits.length := by
  induction digits using reverseRecOn with
  | nil => simp
  | append_singleton digits char ih =>
      have earlier := ih fun other member => all other (mem_append_left _ member)
      have last := toNat_sub_lt_of_isDigit (all char (by simp))
      have spelled : digitsNumber [char] = char.toNat - '0'.toNat := by
        simp [digitsNumber, Nat.ofDigitChars_cons]
      rw [digitsNumber_append, spelled, length_append,
        length_singleton, pow_one, pow_succ]
      omega

theorem digitsNumber_eq_zero_iff
    {digits : List Char}
    (all : ∀ char ∈ digits, char.isDigit = true) :
    digitsNumber digits = 0 ↔ ∀ char ∈ digits, char = '0' := by
  induction digits with
  | nil => simp
  | cons char digits ih =>
      obtain ⟨isDigit, others⟩ := forall_mem_cons.mp all
      have within : 48 ≤ char.toNat ∧ char.toNat ≤ 57 :=
        Char.isDigit_iff_toNat.mp isDigit
      have zero : '0'.toNat = 48 := rfl
      have head : char.toNat - '0'.toNat = 0 ↔ char = '0' := by
        rw [← Char.toNat_inj, zero]
        omega
      have spelled : digitsNumber [char] = char.toNat - '0'.toNat := by
        simp [digitsNumber, Nat.ofDigitChars_cons]
      rw [forall_mem_cons, ← ih others, ← head, ← spelled,
        ← singleton_append, digitsNumber_append]
      simp

theorem digitsNumber_zeros_append
    (count : Nat) (digits : List Char) :
    digitsNumber (replicate count '0' ++ digits) = digitsNumber digits := by
  simp [digitsNumber_append]

/-! ## Numerals -/

/-- The sign before a numeral, if one is written. -/
inductive NumeralSign where
  | implicit
  | plus
  | minus
  deriving DecidableEq, Repr

namespace NumeralSign

/-- The sign as it is written. -/
def text : NumeralSign → List Char
  | implicit => []
  | plus => ['+']
  | minus => ['-']

/-- The sign is that of a negative number. -/
def negative : NumeralSign → Bool
  | minus => true
  | _ => false

end NumeralSign

/-- A count with a sign. -/
def signedNumber (negative : Bool) (magnitude : Nat) : Int :=
  if negative then -magnitude else magnitude

/-- A numeral: digits, of which there are some, and a point that may stand
before, between or after them. -/
structure DecimalNumeral where
  sign : NumeralSign
  whole : List Char
  fraction : Option (List Char)
  wholeDigits : ∀ char ∈ whole, char.isDigit = true
  fractionDigits : ∀ char ∈ fraction.getD [], char.isDigit = true
  someDigit : ¬ (whole = [] ∧ fraction.getD [] = [])

namespace DecimalNumeral

/-- The digits after the point. -/
def places (numeral : DecimalNumeral) : List Char := numeral.fraction.getD []

/-- The digits and the point as they are written. -/
def digits (numeral : DecimalNumeral) : List Char :=
  match numeral.fraction with
  | none => numeral.whole
  | some fraction => numeral.whole ++ '.' :: fraction

/-- The numeral as it is written. -/
def text (numeral : DecimalNumeral) : List Char := numeral.sign.text ++ numeral.digits

/-- The rational number that the numeral denotes. -/
def value (numeral : DecimalNumeral) : Rat :=
  (if numeral.sign.negative then -1 else 1) * (digitsNumber numeral.whole +
      digitsNumber numeral.places / 10 ^ numeral.places.length)

/-- The digits that spell a count of units of a scale: those of the numeral as
far as the scale, with zeros up to it. -/
def unitDigits (whole fraction : List Char) (scale : Nat) : List Char :=
  whole ++ fraction.take scale ++
    List.replicate (scale - (fraction.take scale).length) '0'

/-- What digits denote is the units they spell and what is past the scale. -/
theorem magnitude_eq
    (whole fraction : List Char) (scale : Nat) :
    (digitsNumber whole + digitsNumber fraction / 10 ^ fraction.length : Rat) =
      (digitsNumber (unitDigits whole fraction scale) +
        digitsNumber (fraction.drop scale) /
          10 ^ (fraction.drop scale).length) / 10 ^ scale := by
  have spelled : digitsNumber (unitDigits whole fraction scale) =
      (digitsNumber whole * 10 ^ (fraction.take scale).length +
        digitsNumber (fraction.take scale)) *
          10 ^ (scale - (fraction.take scale).length) := by
    simp only [unitDigits, digitsNumber_append, length_replicate,
      digitsNumber_replicate_zero, Nat.add_zero]
  rw [spelled]
  by_cases short : fraction.length ≤ scale
  · rw [take_of_length_le short, drop_eq_nil_of_le short]
    obtain ⟨padding, rfl⟩ := Nat.exists_eq_add_of_le short
    simp only [Nat.add_sub_cancel_left, pow_add, digitsNumber_nil, length_nil, pow_zero]
    push_cast
    field_simp
    ring
  · have long : scale ≤ fraction.length := Nat.le_of_not_le short
    have parts := digitsNumber_append (fraction.take scale) (fraction.drop scale)
    have lengths : fraction.length = scale + (fraction.drop scale).length := by
      rw [length_drop]
      omega
    rw [take_append_drop] at parts
    rw [parts, length_take_of_le long, lengths]
    simp only [Nat.sub_self, pow_add, pow_zero, mul_one]
    push_cast
    field_simp
    ring

/-- A numeral denotes a count of units of a scale when the digits past the
scale are zeros and the others spell the count. -/
theorem value_eq_iff
    (numeral : DecimalNumeral) (units : Int) (scale : Nat) :
    numeral.value = units / 10 ^ scale ↔
      (∀ char ∈ numeral.places.drop scale, char = '0') ∧
        signedNumber numeral.sign.negative
          (digitsNumber (unitDigits numeral.whole numeral.places scale)) =
            units := by
  have pastDigits : ∀ char ∈ numeral.places.drop scale, char.isDigit = true :=
    fun char member => numeral.fractionDigits char (mem_of_mem_drop member)
  have small := digitsNumber_lt pastDigits
  rw [value, magnitude_eq numeral.whole numeral.places scale,
    ← digitsNumber_eq_zero_iff pastDigits]
  generalize digitsNumber (unitDigits numeral.whole numeral.places scale) = spelled
  generalize (numeral.places.drop scale).length = count at small
  generalize digitsNumber (numeral.places.drop scale) = past at small
  have power : (0 : Rat) < 10 ^ scale := by positivity
  have countPower : (0 : Rat) < 10 ^ count := by positivity
  have below : (past : Rat) / 10 ^ count < 1 := by
    rw [div_lt_one countPower]
    exact_mod_cast small
  have above : (0 : Rat) ≤ (past : Rat) / 10 ^ count := by positivity
  have whole_iff : ∀ number : Int, (spelled + past / 10 ^ count : Rat) = number ↔
        past = 0 ∧ (spelled : Int) = number := by
    intro number
    constructor
    · intro same
      have atMost : (spelled : Int) ≤ number := by
        have : ((spelled : Int) : Rat) ≤ number := by
          push_cast
          linarith
        exact_mod_cast this
      have atLeast : number < spelled + 1 := by
        have : ((number : Int) : Rat) < ((spelled + 1 : Int) : Rat) := by
          push_cast
          linarith
        exact_mod_cast this
      have isWhole : (spelled : Int) = number := by omega
      have nothing : (past : Rat) / 10 ^ count = 0 := by
        have : (number : Rat) = (spelled : Rat) := by
          exact_mod_cast isWhole.symm
        linarith
      refine ⟨?_, isWhole⟩
      rcases div_eq_zero_iff.mp nothing with zero | zero
      · exact_mod_cast zero
      · exact absurd zero countPower.ne'
    · rintro ⟨rfl, rfl⟩
      simp
  cases numeral.sign.negative with
  | false =>
      simp only [Bool.false_eq_true, if_false, one_mul, signedNumber]
      rw [div_left_inj' power.ne', whole_iff]
  | true =>
      simp only [if_true, signedNumber]
      have negated : (-1 : Rat) * ((spelled + past / 10 ^ count) / 10 ^ scale) =
            units / 10 ^ scale ↔
          (spelled + past / 10 ^ count : Rat) = ((-units : Int) : Rat) := by
        rw [← mul_div_assoc, div_left_inj' power.ne']
        push_cast
        constructor
        · intro same
          linarith
        · intro same
          linarith
      rw [negated, whole_iff]
      constructor
      · rintro ⟨nothing, same⟩
        exact ⟨nothing, by omega⟩
      · rintro ⟨nothing, same⟩
        exact ⟨nothing, by omega⟩

end DecimalNumeral

end SlateOrm
