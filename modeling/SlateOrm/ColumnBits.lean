import SlateOrm.Schema
import Mathlib.Data.Nat.Bitwise

namespace SlateOrm

/-!
# Sets of columns as bits

The inner loop asks of every column of every row whether it is wanted, so the
set of wanted columns is a bitset: words of 64 bits, as many as its largest
column needs.  It is a set of columns and nothing more.
-/

/-- A set of columns: its words, and how many columns are in it. -/
structure ColumnBits where
  words : List UInt64 := []
  len : Nat := 0
  deriving DecidableEq, Repr

namespace ColumnBits

/-- The bit of a column in its word. -/
def bitOf (ordinal : Ordinal) : UInt64 := 1 <<< UInt64.ofNat (ordinal % 64)

/-- Add a column. -/
def insert (set : ColumnBits) (ordinal : Ordinal) : ColumnBits :=
  let word := ordinal / 64
  let words := if word < set.words.length then
      set.words
    else
      set.words ++ List.replicate (word + 1 - set.words.length) 0
  match words[word]? with
  | none => ⟨words, set.len⟩
  | some slot =>
      if slot &&& bitOf ordinal = 0 then
        ⟨words.set word (slot ||| bitOf ordinal), set.len + 1⟩
      else
        ⟨words, set.len⟩

/-- Whether a column is in the set. -/
def contains (set : ColumnBits) (ordinal : Ordinal) : Bool :=
  match set.words[ordinal / 64]? with
  | none => false
  | some word => word &&& bitOf ordinal != 0

/-- The set of some columns. -/
def ofList (ordinals : List Ordinal) : ColumnBits := ordinals.foldl insert {}

/-- The columns that are in a set. -/
def columns (set : ColumnBits) : ColumnSet :=
  (Finset.range (set.words.length * 64)).filter
    (fun ordinal => set.contains ordinal = true)

/-! ## Sets -/

@[simp]
theorem mem_columns
    {set : ColumnBits} {ordinal : Ordinal} :
    ordinal ∈ set.columns ↔ set.contains ordinal = true := by
  rw [columns, Finset.mem_filter, Finset.mem_range]
  refine ⟨And.right, fun isIn => ⟨?_, isIn⟩⟩
  rw [contains] at isIn
  cases found : set.words[ordinal / 64]? with
  | none =>
      rw [found] at isIn
      cases isIn
  | some _ =>
      have inside := (List.getElem?_eq_some_iff.mp found).1
      omega

end ColumnBits

end SlateOrm
