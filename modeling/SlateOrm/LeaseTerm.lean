import SlateOrm.Leadership
import SlateOrm.Schema
import SlateOrm.TextLines

namespace SlateOrm

/-!
# The generations of a lease

Terms are ordered by their generation, which every acquisition raises and which
is kept as decimal digits in a text.
-/

namespace Lease

/-- Raise a generation; the largest one stays. -/
def nextGeneration (generation : UInt64) : UInt64 :=
  if generation.toNat + 1 < UInt64.size then generation + 1 else generation

/-- A later generation is above an earlier one, up to the largest. -/
def Raised (earlier later : UInt64) : Prop :=
  earlier ≤ later ∧ (earlier.toNat + 1 < UInt64.size → earlier < later)

theorem le_nextGeneration
    (generation : UInt64) :
    generation ≤ nextGeneration generation := by
  unfold nextGeneration
  split
  · rename_i small
    rw [UInt64.le_iff_toNat_le, UInt64.toNat_add]
    have : generation.toNat + (1 : UInt64).toNat < 2 ^ 64 := small
    rw [Nat.mod_eq_of_lt this]
    exact Nat.le_add_right _ _
  · exact UInt64.le_refl _

theorem raised_nextGeneration
    {earlier recorded : UInt64}
    (within : earlier ≤ recorded) :
    Raised earlier (nextGeneration recorded) := by
  refine ⟨UInt64.le_trans within (le_nextGeneration recorded), ?_⟩
  intro small
  rw [UInt64.lt_iff_toNat_lt]
  rw [UInt64.le_iff_toNat_le] at within
  unfold nextGeneration
  split
  · rename_i notLargest
    rw [UInt64.toNat_add]
    have : recorded.toNat + (1 : UInt64).toNat < 2 ^ 64 := notLargest
    rw [Nat.mod_eq_of_lt this]
    exact Nat.lt_succ_of_le within
  · rename_i largest
    omega

theorem isWhitespace_of_isDigit
    {char : Char}
    (isDigit : char.isDigit = true) :
    isWhitespace char = false := by
  have bounds : 48 ≤ char.toNat ∧ char.toNat ≤ 57 := by
    simpa [Char.isDigit, UInt32.le_iff_toNat_le] using isDigit
  simp only [isWhitespace, Bool.or_eq_false_iff, Bool.and_eq_false_iff,
    decide_eq_false_iff_not, beq_eq_false_iff_ne]
  omega

theorem parse_toDigits
    (number : UInt64) :
    parseUnsigned UInt64.size (trimText isWhitespace (Nat.toDigits 10 number.toNat)) =
        some number.toNat := by
  rw [trimText_of_plain (fun char member => isWhitespace_of_isDigit
    (isDigit_toDigits member)), parseUnsigned_toDigits, if_pos number.toNat_lt]

end Lease

end SlateOrm
