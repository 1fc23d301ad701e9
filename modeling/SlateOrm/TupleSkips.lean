import SlateOrm.PartialDecode

namespace SlateOrm

/-!
# Skipping an element

Skipping repeats the length of every element without reading its contents.  On
any bytes it stops where a reader stops, further on in the buffer and never
past its end, and an array's elements are never arrays themselves.
-/

namespace TupleReader

variable {reader next after : TupleReader} {mask : UInt8}

/-! ## Going on -/

/-- A reader is left some bytes further on in its buffer, if any. -/
def Passes (reader after : TupleReader) : Prop :=
  ∃ count ≤ reader.remainder.length, after = reader.skipped count

/-- A reader is left some bytes further on in its buffer. -/
def GoesOn (reader after : TupleReader) : Prop :=
  ∃ count, 0 < count ∧ count ≤ reader.remainder.length ∧ after = reader.skipped count

theorem Passes.refl
    (reader : TupleReader) :
    reader.Passes reader :=
  ⟨0, Nat.zero_le _, rfl⟩

theorem Passes.trans
    (first : reader.Passes next) (later : next.Passes after) :
    reader.Passes after := by
  obtain ⟨count, within, rfl⟩ := first
  obtain ⟨further, within', rfl⟩ := later
  rw [skipped, List.length_drop] at within'
  refine ⟨count + further, by omega, ?_⟩
  simp [skipped, Nat.add_assoc]

theorem GoesOn.passes
    (goesOn : reader.GoesOn after) :
    reader.Passes after := by
  obtain ⟨count, _, within, isAfter⟩ := goesOn
  exact ⟨count, within, isAfter⟩

theorem GoesOn.length_lt
    (goesOn : reader.GoesOn after) :
    after.remainder.length < reader.remainder.length := by
  obtain ⟨count, positive, within, rfl⟩ := goesOn
  rw [skipped, List.length_drop]
  omega

theorem goesOn_of_byte
    {byte : UInt8}
    (read : reader.byte mask = .ok (byte, next))
    (later : next.Passes after) :
    reader.GoesOn after := by
  obtain ⟨pos, remainder⟩ := reader
  cases remainder with
  | nil => cases read
  | cons head rest =>
      cases read
      obtain ⟨count, within, rfl⟩ := later
      refine ⟨count + 1, Nat.succ_pos _, Nat.succ_le_succ within, ?_⟩
      rw [skipped, skipped, List.drop_succ_cons, Nat.add_assoc, Nat.add_comm 1]

theorem passes_of_advance
    {count : Nat}
    (success : reader.advance count = .ok after) :
    reader.Passes after := by
  rw [advance] at success
  split at success
  · next within =>
      cases success
      exact ⟨count, within, rfl⟩
  · cases success

theorem passes_of_take
    {count : Nat} {bytes : Bytes}
    (success : reader.take count mask = .ok (bytes, after)) :
    reader.Passes after :=
  passes_of_advance (advance_of_take success)

theorem passes_of_skipEscapedFrom
    {pos : Nat} {bytes : Bytes}
    (success : skipEscapedFrom mask pos bytes = .ok after) :
    Passes ⟨pos, bytes⟩ after := by
  have one (pos : Nat) (byte : UInt8) (rest : Bytes) :
      Passes ⟨pos, byte :: rest⟩ ⟨pos + 1, rest⟩ :=
    ⟨1, Nat.succ_le_succ (Nat.zero_le _), rfl⟩
  fun_induction skipEscapedFrom mask pos bytes with
  | case1 => cases success
  | case2 pos first rest isPlain ih => exact (one pos first rest).trans (ih success)
  | case3 => cases success
  | case4 pos first isNul second rest ends =>
      cases success
      exact (one pos first _).trans (one _ second rest)
  | case5 pos first isNul second rest goesOn escaped ih =>
      exact ((one pos first _).trans (one _ second rest)).trans (ih success)
  | case6 => cases success

/-- Skipping an element goes on, if skipping an array's body stays within. -/
theorem goesOn_of_skipWith
    {array : TupleReader → Except TupleError TupleReader}
    (arrays : ∀ reader after, array reader = .ok after → reader.Passes after)
    (success : skipWith array reader mask = .ok after) :
    reader.GoesOn after := by
  rw [skipWith] at success
  obtain ⟨⟨code, next⟩, read, success⟩ := bind_eq_ok.mp success
  refine goesOn_of_byte read ?_
  dsimp only at success
  split at success
  · cases success
    exact .refl _
  split at success
  · exact passes_of_advance success
  split at success
  · exact passes_of_skipEscapedFrom success
  split at success
  · exact passes_of_advance success
  split at success
  · obtain ⟨⟨inner, next'⟩, readInner, success⟩ := bind_eq_ok.mp success
    refine (goesOn_of_byte readInner ?_).passes
    dsimp only at success
    split at success
    · cases success
    · exact passes_of_advance success
  split at success
  · exact passes_of_advance success
  split at success
  · obtain ⟨⟨count, next'⟩, readCount, success⟩ := bind_eq_ok.mp success
    obtain ⟨⟨raw, next''⟩, readRaw, isCount⟩ := bind_eq_ok.mp readCount
    cases isCount
    exact (passes_of_take readRaw).trans (passes_of_advance success)
  split at success
  · exact arrays next after success
  · cases success

theorem goesOn_of_skipElement
    {error : TupleError}
    (success : skipWith (fun _ => .error error) reader mask = .ok after) :
    reader.GoesOn after :=
  goesOn_of_skipWith (fun _ _ refused => by cases refused) success

/-! ## Elements of arrays -/

/-- An array's elements, nested arrays among them read by `array`. -/
def readElementsWith (array : TupleReader → Except TupleError (Value × TupleReader))
    (mask : UInt8) :
    Nat → TupleReader → Except TupleError (List Value × TupleReader)
  | 0, reader => .error (.truncated reader.pos 1)
  | fuel + 1, reader => do
      let at' := reader.pos
      let (code, after) ← reader.byte mask
      if code = Codes.NUL then
        .ok ([], after)
      else if code = Codes.ARRAY then
        .error (.unknownTypeCode at' code)
      else
        let (element, reader) ← readDynamicWith array reader mask
        let (elements, reader) ← readElementsWith array mask fuel reader
        return (element :: elements, reader)

/-- Skip an array's elements, nested arrays among them by `array`. -/
def skipElementsWith (array : TupleReader → Except TupleError TupleReader)
    (mask : UInt8) :
    Nat → TupleReader → Except TupleError TupleReader
  | 0, reader => .error (.truncated reader.pos 1)
  | fuel + 1, reader => do
      let at' := reader.pos
      let (inner, after) ← reader.byte mask
      if inner = Codes.NUL then
        .ok after
      else if inner = Codes.ARRAY then
        .error (.unknownTypeCode at' inner)
      else
        let reader ← skipWith array reader mask
        skipElementsWith array mask fuel reader

section

variable
  {code : UInt8}
  (read : reader.byte mask = .ok (code, next))
  (notArray : code ≠ Codes.ARRAY)

include read notArray

theorem readDynamicWith_congr
    (array other : TupleReader → Except TupleError (Value × TupleReader)) :
    readDynamicWith array reader mask = readDynamicWith other reader mask := by
  simp only [readDynamicWith, readBodyWith, read, bind, Except.bind, if_neg notArray]

theorem skipWith_congr
    (array other : TupleReader → Except TupleError TupleReader) :
    skipWith array reader mask = skipWith other reader mask := by
  simp only [skipWith, read, bind, Except.bind, if_neg notArray]

end

/--
The elements of an array are read without a second level and in as many rounds
as there are bytes: neither what a nested array is read with nor more rounds
than that make a difference.
-/
theorem readElementsWith_eq
    (array : TupleReader → Except TupleError (Value × TupleReader))
    {fuel enough : Nat}
    (isFuel : reader.remainder.length < fuel)
    (isEnough : reader.remainder.length < enough) :
    readElementsWith array mask fuel reader = readArrayElements mask enough reader := by
  induction fuel generalizing reader enough with
  | zero => cases isFuel
  | succ fuel ih =>
      obtain ⟨enough, rfl⟩ := Nat.exists_eq_add_one_of_ne_zero
        (Nat.ne_zero_of_lt isEnough)
      rw [readElementsWith, readArrayElements]
      cases read : reader.byte mask with
      | error error => rfl
      | ok found =>
          obtain ⟨code, next⟩ := found
          simp only [bind, Except.bind]
          split
          · rfl
          split
          · rfl
          · next notArray =>
              rw [readDynamicWith_congr read notArray array
                (fun _ => .error (.unknownTypeCode reader.pos code))]
              split
              · rfl
              · next element success =>
                  have skips : skipWith (fun _ => .error (.truncated 0 0)) reader mask =
                        .ok element.2 :=
                    skipWith_of_readDynamicWith
                      (fun _ _ _ nested => by cases nested) success
                  have fewer := (goesOn_of_skipElement skips).length_lt
                  rw [@ih element.2 enough (by omega) (by omega)]

theorem skipElementsWith_eq
    (array : TupleReader → Except TupleError TupleReader) {fuel enough : Nat}
    (isFuel : reader.remainder.length < fuel)
    (isEnough : reader.remainder.length < enough) :
    skipElementsWith array mask fuel reader = skipArrayElements mask enough reader := by
  induction fuel generalizing reader enough with
  | zero => cases isFuel
  | succ fuel ih =>
      obtain ⟨enough, rfl⟩ := Nat.exists_eq_add_one_of_ne_zero
        (Nat.ne_zero_of_lt isEnough)
      rw [skipElementsWith, skipArrayElements]
      cases read : reader.byte mask with
      | error error => rfl
      | ok found =>
          obtain ⟨code, next⟩ := found
          simp only [bind, Except.bind]
          split
          · rfl
          split
          · rfl
          · next notArray =>
              rw [skipWith_congr read notArray array
                (fun _ => .error (.unknownTypeCode reader.pos code))]
              split
              · rfl
              · next success =>
                  have fewer := (goesOn_of_skipElement success).length_lt
                  exact ih (by omega) (by omega)

theorem passes_of_skipArrayElements
    {fuel : Nat}
    (success : skipArrayElements mask fuel reader = .ok after) :
    reader.Passes after := by
  induction fuel generalizing reader with
  | zero => cases success
  | succ fuel ih =>
      rw [skipArrayElements] at success
      obtain ⟨⟨code, next⟩, read, success⟩ := bind_eq_ok.mp success
      dsimp only at success
      split at success
      · cases success
        exact (goesOn_of_byte read (.refl _)).passes
      split at success
      · cases success
      · obtain ⟨middle, skipped, success⟩ := bind_eq_ok.mp success
        exact (goesOn_of_skipElement skipped).passes.trans (ih success)

/-! ## Skipping agrees with reading -/

theorem goesOn_of_skip
    {direction : Direction}
    (success : reader.skip direction = .ok after) :
    reader.GoesOn after :=
  goesOn_of_skipWith (fun _ _ => passes_of_skipArrayElements) success

theorem goesOn_of_read
    {direction : Direction} {type : ValueType} {value : Value}
    (success : reader.read type direction = .ok (value, after)) :
    reader.GoesOn after :=
  goesOn_of_skip (skip_of_read success)

/--
Wherever an element is read, by its code or as a type, skipping it stops at the
same place, further on and within the buffer.  An array's elements are read and
skipped in at most a round for each byte, without a second level.
-/
theorem skip_agrees
    (reader : TupleReader) (direction : Direction) :
    (∀ after, ((∃ value, reader.readDynamic direction = .ok (value, after)) ∨
        ∃ type value, reader.read type direction = .ok (value, after)) →
      reader.skip direction = .ok after) ∧
      (∀ after, reader.skip direction = .ok after → reader.GoesOn after) ∧
      ∀ fuel > reader.remainder.length,
        (∀ array, readElementsWith array direction.mask fuel reader =
          readArrayElements direction.mask (reader.remainder.length + 1) reader) ∧
        ∀ array, skipElementsWith array direction.mask fuel reader =
          skipArrayElements direction.mask (reader.remainder.length + 1)
            reader := by
  refine ⟨?_, ?_, ?_⟩
  · rintro after (⟨value, success⟩ | ⟨type, value, success⟩)
    · exact skip_of_readDynamic success
    · exact skip_of_read success
  · exact fun after => goesOn_of_skip
  · intro fuel isFuel
    exact ⟨fun array => readElementsWith_eq array isFuel (Nat.lt_succ_self _),
      fun array => skipElementsWith_eq array isFuel (Nat.lt_succ_self _)⟩

/-- A text and what follows it. -/
theorem skip_agrees_text :
    (TupleReader.new (encode [.str "ab", .null])).skip .asc = .ok ⟨5, encode [.null]⟩ :=
  (skip_agrees (.new (encode [.str "ab", .null])) .asc).1 _
    (.inr ⟨.str, .str "ab", rfl⟩)

end TupleReader

end SlateOrm
