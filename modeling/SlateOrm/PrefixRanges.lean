import SlateOrm.KeyRangeLaws
import SlateOrm.RowCode

namespace SlateOrm

open List Option

/-!
# The keys that begin with a prefix

A tuple that begins with another is encoded as bytes that begin with the
other's, and only such a tuple is, since no element's encoding begins another's.
A text without its terminator begins the texts that begin with it.
-/

namespace Value

/-- A tuple begins with the elements of another. -/
def startsWith (values start : List Value) : Bool :=
  decide (start.length ≤ values.length) && values.take start.length == start

@[simp]
theorem startsWith_nil
    (values : List Value) :
    startsWith values [] = true := by
  simp [startsWith]

@[simp]
theorem startsWith_nil_cons
    (first : Value) (rest : List Value) :
    startsWith [] (first :: rest) = false := by
  simp [startsWith]

/-- Tuples begin alike when their first elements are equal and the others
begin alike. -/
@[simp]
theorem startsWith_cons_cons
    (value first : Value) (values rest : List Value) :
    startsWith (value :: values) (first :: rest) =
      (value == first && startsWith values rest) := by
  simp only [startsWith, length_cons, Nat.add_le_add_iff_right,
    take_succ_cons, cons_beq_cons, Bool.and_left_comm]

/-- A string of bytes or a text begins with the bytes of another. -/
def BeginsWith : Value → Value → Prop
  | bytes whole, bytes start => start <+: whole
  | str whole, str start => utf8 start <+: utf8 whole
  | _, _ => False

end Value

/-! ## Starts of texts -/

/-- Escaped bytes that end begin with escaped bytes when they begin with them
unescaped. -/
theorem escape_isPrefix_iff
    (start whole : Bytes) :
    escape start <+: escape whole ++ [Codes.NUL, Codes.NUL] ↔ start <+: whole := by
  induction start generalizing whole with
  | nil => simp [escape]
  | cons byte rest ih =>
      cases whole with
      | nil =>
          refine iff_of_false ?_ (by simp)
          rw [escape, escape, nil_append]
          split
          · simp [cons_prefix_cons, Codes.NUL, Codes.ESCAPE]
          · next notNul => simp [cons_prefix_cons, notNul]
      | cons byte' rest' =>
          have others := ih rest'
          simp only [escape, cons_prefix_cons, ← others]
          by_cases isNul : byte = Codes.NUL
          · by_cases isNul' : byte' = Codes.NUL
            · simp [isNul, isNul', cons_prefix_cons]
            · simp [isNul, isNul', Ne.symm isNul', cons_prefix_cons]
          · by_cases isNul' : byte' = Codes.NUL
            · simp [isNul, isNul', cons_prefix_cons]
            · simp [isNul, isNul', cons_prefix_cons]

theorem extend_isPrefix_iff
    (mask : UInt8) (start whole : Bytes) :
    extend mask start <+: extend mask whole ↔ start <+: whole := by
  constructor
  · intro begins
    have masked := begins.map (· ^^^ mask)
    change extend mask (extend mask start) <+: extend mask (extend mask whole) at masked
    rwa [extend_extend, extend_extend] at masked
  · exact fun begins => begins.map (· ^^^ mask)

theorem encodePrefix_mask
    (direction : Direction) (start : Value) :
    encodePrefix start direction =
      (encodePrefix start .asc).map (extend direction.mask) := by
  cases start <;> simp only [encodePrefix, extend_ascMask, map_some, map_none]

/-- An element's encoding begins with the start of a text when the element is
a text that begins with it. -/
theorem encodePrefix_isPrefix_iff
    {direction : Direction} {start value : Value} {bytes : Bytes}
    (encoded : encodePrefix start direction = some bytes) :
    bytes <+: encodeValue direction value ↔ value.BeginsWith start := by
  rw [encodePrefix_mask, map_eq_some_iff] at encoded
  obtain ⟨plain, encoded, rfl⟩ := encoded
  rw [encodeValue_mask, extend_isPrefix_iff]
  obtain ⟨code, rest, word, rank, -, -⟩ := encodeValue_lead value
  have leads : ∀ (first : UInt8) (others : Bytes),
      first :: others <+: encodeValue .asc value →
        rankOfCode first = value.classRank := by
    intro first others begins
    rw [word, cons_prefix_cons] at begins
    rw [begins.1, rank]
  have classes := Classical.em (value.classRank = start.classRank)
  cases start with
  | bytes start
  | str start =>
      obtain rfl := some.inj encoded
      rw [extend_cons]
      rcases classes with sameClass | otherClass
      · cases value <;> cases sameClass
        simp [encodeValue, pushEscaped, Value.BeginsWith, escape_isPrefix_iff]
      · refine iff_of_false (fun begins => otherClass (leads _ _ begins).symm) ?_
        intro begins
        cases value <;> first | exact otherClass rfl | exact begins
  | _ => cases encoded

/-! ## Prefixes of tuples -/

/-- A tuple's encoding begins with another's when the tuples, with their
vectors cut to what a count can describe, begin alike. -/
theorem encodeWith_isPrefix_iff
    (values start : List Value) (directions : List Direction) :
    encodeWith start directions <+: encodeWith values directions ↔
      Value.startsWith (Value.cutList values) (Value.cutList start) = true := by
  induction start generalizing values directions with
  | nil => simp [encodeWith, Value.cutList]
  | cons first rest ih =>
      cases values with
      | nil =>
          refine iff_of_false ?_ (by simp [Value.cutList])
          intro begins
          rw [encodeWith, encodeWith, prefix_nil, append_eq_nil_iff] at begins
          exact encodeValue_ne_nil _ _ begins.1
      | cons value values =>
          rw [Value.cutList, Value.cutList, Value.startsWith_cons_cons,
            Bool.and_eq_true, Value.beq_iff_canonical, ← encodeValue_eq_iff
              (directions.headD .asc), ← ih values
              directions.tail, encodeWith, encodeWith]
          constructor
          · rintro ⟨others, same⟩
            rw [append_assoc] at same
            obtain ⟨head, tail⟩ := encodeValue_append_inj same
            exact ⟨head.symm, others, tail⟩
          · rintro ⟨head, others, tail⟩
            exact ⟨others, by rw [head, append_assoc, tail]⟩

/-- What prefixes promise: a tuple begins with another exactly when its
encoding does, an element begins with a text exactly when its encoding begins
with the start of the text, and a range of a prefix has the keys that begin
with it. -/
structure PrefixesExactly
    (values start : List Value)
    (directions : List Direction) : Prop where
  tuples : Value.startsWith values start = true ↔
    encodeWith start directions <+: encodeWith values directions
  texts : ∀ direction value text bytes, encodePrefix text direction = some bytes →
      (value.BeginsWith text ↔ bytes <+: encodeValue direction value)
  ranges : ∀ bytes key, (KeyRange.ofPrefix bytes).contains key = true ↔ bytes <+: key

/-- Prefixes are exact when cutting every vector to what its count can describe
does not change whether the one tuple begins with the other. -/
theorem prefixesExactly_iff
    (values start : List Value) (directions : List Direction) :
    PrefixesExactly values start directions ↔
      Value.startsWith (Value.cutList values) (Value.cutList start) =
        Value.startsWith values start := by
  have bytes := encodeWith_isPrefix_iff values start directions
  constructor
  · intro exact_
    rw [Bool.eq_iff_iff, ← bytes, exact_.tuples]
  · intro cutsAlike
    refine ⟨?_, ?_, KeyRange.contains_ofPrefix⟩
    · rw [bytes, cutsAlike]
    · intro direction value text start encoded
      exact (encodePrefix_isPrefix_iff encoded).symm

/-- A vector of more elements than a count can describe begins, as bytes, with
the vector of as many as it can. -/
theorem not_prefixesExactly_overlongVector :
    ¬ PrefixesExactly [overlongVector] [fullVector] [] := by
  intro exact_
  have begins := exact_.tuples.mpr (by rw [encodeWith_overlongVector])
  rw [Value.startsWith_cons_cons, overlongVector_beq_fullVector] at begins
  cases begins

end SlateOrm
