import SlateOrm.TupleCanonical

namespace SlateOrm

open List

/-!
# Reading back what was written

An element that is read from its own encoding comes back in canonical form,
with its vectors cut to what their counts describe, and the reader stops where
the encoding ends.  A typed reader keeps the signedness that its type asks for.
An array inside an array is written and never read.
-/

theorem bind_eq_ok
    {ε α β : Type} {first : Except ε α} {next : α → Except ε β} {result : β} :
    (first >>= next) = .ok result ↔
      ∃ value, first = .ok value ∧ next value = .ok result := by
  cases first with
  | error error =>
      constructor
      · intro success
        cases success
      · rintro ⟨value, isOk, _⟩
        cases isOk
  | ok value =>
      constructor
      · intro success
        exact ⟨value, rfl, success⟩
      · rintro ⟨found, isOk, success⟩
        cases isOk
        exact success

theorem ok_of_bind
    {ε α β : Type} {check : Except ε α} {next : Except ε β} {result : β}
    (passed : (check >>= fun _ => next) = .ok result) :
    next = .ok result := by
  obtain ⟨_, _, passed⟩ := bind_eq_ok.mp passed
  exact passed

/-- A read that succeeds with a value and stops before the given bytes. -/
def Reads {α : Type} (result : Except TupleError (α × TupleReader)) (value : α)
    (rest : Bytes) : Prop :=
  ∃ pos, result = .ok (value, ⟨pos, rest⟩)

/-- A skip that succeeds and stops before the given bytes. -/
def Skips (result : Except TupleError TupleReader) (rest : Bytes) : Prop :=
  ∃ pos, result = .ok ⟨pos, rest⟩

@[simp] theorem xor_mask_mask
    (byte mask : UInt8) :
    byte ^^^ mask ^^^ mask = byte := by
  rw [UInt8.xor_assoc, UInt8.xor_self, UInt8.xor_zero]

@[simp] theorem extend_extend
    (mask : UInt8) (bytes : Bytes) :
    extend mask (extend mask bytes) = bytes := by
  simp [extend, Function.comp_def]

@[simp] theorem length_extend
    (mask : UInt8) (bytes : Bytes) :
    (extend mask bytes).length = bytes.length := by
  simp [extend]

@[simp] theorem extend_cons
    (mask byte : UInt8) (bytes : Bytes) :
    extend mask (byte :: bytes) = (byte ^^^ mask) :: extend mask bytes :=
  rfl

@[simp] theorem extend_nil
    (mask : UInt8) :
    extend mask [] = [] :=
  rfl

@[simp] theorem length_toBeBytes
    (width number : Nat) :
    (toBeBytes width number).length = width := by
  induction width with
  | zero => rfl
  | succ width ih => simp [toBeBytes, ih]

theorem foldl_toBeBytes
    (width number start : Nat) :
    (toBeBytes width number).foldl
        (fun number byte => number * 256 + byte.toNat) start =
      start * 256 ^ width + number % 256 ^ width := by
  induction width generalizing start with
  | zero => simp [toBeBytes, Nat.mod_one]
  | succ width ih =>
      rw [toBeBytes, foldl_cons, ih, pow_succ, Nat.mod_mul, UInt8.toNat_ofNat']
      ring

theorem fromBeBytes_toBeBytes
    {width number : Nat}
    (fits : number < 256 ^ width) :
    fromBeBytes (toBeBytes width number) = number := by
  rw [fromBeBytes, foldl_toBeBytes, Nat.mod_eq_of_lt fits]
  simp

theorem orderedToFloat_floatToOrdered
    {width : Nat} (bits : BitVec (width + 1)) :
    orderedToFloat (floatToOrdered bits) = bits := by
  have signOf := and_intMin_eq_zero_iff bits
  have signOf' := and_intMin_eq_zero_iff (floatToOrdered bits)
  have flipped : (floatToOrdered bits).msb = !bits.msb := by
    unfold floatToOrdered
    split
    · simp [BitVec.msb_xor, BitVec.msb_intMin]
    · simp
  unfold orderedToFloat
  cases sign : bits.msb with
  | false =>
      rw [if_neg (by rw [signOf', flipped, sign]; decide), floatToOrdered,
        if_pos (signOf.mpr sign), BitVec.xor_assoc, BitVec.xor_self,
        BitVec.xor_zero]
  | true =>
      rw [if_pos (by rw [signOf', flipped, sign]; decide), floatToOrdered,
        if_neg (by rw [signOf, sign]; decide), BitVec.not_not]

namespace Value

/-- Whether a value is an array. -/
def isArray : Value → Bool
  | array _ => true
  | _ => false

theorem isArray_iff
    (value : Value) :
    value.isArray = true ↔ ∃ elements, value = array elements := by
  cases value <;> simp [isArray]

/-- Whether a value holds no array inside an array. -/
def flat : Value → Bool
  | array elements => elements.all (fun element => !element.isArray)
  | _ => true

/--
What a typed reader makes of a value: the canonical form, but for integers,
which keep the kind their column has.
-/
def decoded : Value → Value
  | i64 value => i64 value
  | u64 value => u64 value
  | value => value.cut.canonical

end Value

namespace TupleReader

/-! ## The parts of an element -/

theorem byte_reads
    (pos : Nat) (mask byte : UInt8) (rest : Bytes) :
    TupleReader.byte ⟨pos, extend mask [byte] ++ rest⟩ mask =
      .ok (byte, ⟨pos + 1, rest⟩) := by
  simp [TupleReader.byte]

theorem take_reads
    (pos : Nat) (mask : UInt8) (bytes rest : Bytes) :
    TupleReader.take ⟨pos, extend mask bytes ++ rest⟩ bytes.length mask =
      .ok (bytes, ⟨pos + bytes.length, rest⟩) := by
  have taken : (extend mask bytes ++ rest).take bytes.length = extend mask bytes := by
    rw [← length_extend mask bytes, take_left]
  have dropped : (extend mask bytes ++ rest).drop bytes.length = rest := by
    rw [← length_extend mask bytes, drop_left]
  have masked : (extend mask bytes).map (· ^^^ mask) = bytes := extend_extend mask bytes
  rw [TupleReader.take, if_pos (by simp)]
  simp only [taken, masked, skipped, dropped]

theorem readEscapedFrom_reads
    (pos : Nat) (mask : UInt8) (bytes rest : Bytes) :
    Reads (readEscapedFrom mask pos (pushEscaped mask bytes ++ rest)) bytes rest := by
  induction bytes generalizing pos with
  | nil =>
      refine ⟨pos + 2, ?_⟩
      simp [pushEscaped, escape, readEscapedFrom]
  | cons byte bytes ih =>
      by_cases zero : byte = Codes.NUL
      · obtain ⟨stop, read⟩ := ih (pos + 2)
        refine ⟨stop, ?_⟩
        have written : pushEscaped mask (byte :: bytes) ++ rest =
            (Codes.NUL ^^^ mask) :: (Codes.ESCAPE ^^^ mask) ::
              (pushEscaped mask bytes ++ rest) := by
          simp [pushEscaped, escape, zero]
        rw [written, readEscapedFrom]
        simp only [xor_mask_mask, ne_eq, not_true_eq_false, if_false]
        rw [if_neg (by decide), if_pos trivial, read, zero]
        rfl
      · obtain ⟨stop, read⟩ := ih (pos + 1)
        refine ⟨stop, ?_⟩
        have written : pushEscaped mask (byte :: bytes) ++ rest =
            (byte ^^^ mask) :: (pushEscaped mask bytes ++ rest) := by
          simp [pushEscaped, escape, zero]
        rw [written, readEscapedFrom.eq_def]
        dsimp only
        rw [xor_mask_mask, if_pos zero, read]
        rfl

theorem skipEscapedFrom_eq
    (mask : UInt8) (pos : Nat) (bytes : Bytes) :
    skipEscapedFrom mask pos bytes = (readEscapedFrom mask pos bytes).map Prod.snd := by
  fun_induction readEscapedFrom mask pos bytes with
  | case1 pos => rfl
  | case2 pos first rest nonzero ih =>
      rw [skipEscapedFrom.eq_def]
      dsimp only
      rw [if_pos nonzero, ih]
      cases readEscapedFrom mask (pos + 1) rest <;> rfl
  | case3 pos first zero =>
      rw [skipEscapedFrom.eq_def]
      dsimp only
      rw [if_neg zero]
      rfl
  | case4 pos first zero second rest ends =>
      rw [skipEscapedFrom, if_neg zero, if_pos ends]
      rfl
  | case5 pos first zero second rest goesOn escaped ih =>
      rw [skipEscapedFrom, if_neg zero, if_neg goesOn, if_pos escaped, ih]
      cases readEscapedFrom mask (pos + 2) rest <;> rfl
  | case6 pos first zero second rest goesOn bad =>
      rw [skipEscapedFrom, if_neg zero, if_neg goesOn, if_neg bad]
      rfl

theorem advance_eq
    (reader : TupleReader) (count : Nat) (mask : UInt8) :
    reader.advance count = (reader.take count mask).map Prod.snd := by
  unfold advance TupleReader.take
  split <;> rfl

/-- The digits of a magnitude are read back. -/
theorem readMagnitude_reads
    (pos len magnitude start : Nat) (mask : UInt8) (negative : Bool)
    (rest : Bytes) :
    Reads (readMagnitude mask negative len start
        ⟨pos, extend mask ((toBeBytes len magnitude).map
          (fun byte => if negative then ~~~byte else byte)) ++ rest⟩)
      (start * 256 ^ len + magnitude % 256 ^ len) rest := by
  induction len generalizing pos start with
  | zero =>
      refine ⟨pos, ?_⟩
      simp [readMagnitude, toBeBytes, Nat.mod_one]
  | succ len ih =>
      obtain ⟨stop, read⟩ := ih (pos + 1) (start * 256 + (magnitude / 256 ^ len) % 256)
      refine ⟨stop, ?_⟩
      have digit : (if negative = true then
          ~~~(if negative = true then
            ~~~(UInt8.ofNat (magnitude / 256 ^ len))
          else UInt8.ofNat (magnitude / 256 ^ len))
          else (if negative = true then
            ~~~(UInt8.ofNat (magnitude / 256 ^ len))
          else UInt8.ofNat (magnitude / 256 ^ len))).toNat =
          (magnitude / 256 ^ len) % 256 := by
        cases negative <;> simp
      have sum : (start * 256 + magnitude / 256 ^ len % 256) * 256 ^ len +
          magnitude % 256 ^ len =
          start * 256 ^ (len + 1) + magnitude % 256 ^ (len + 1) := by
        rw [pow_succ, Nat.mod_mul]
        ring
      rw [← sum, ← read, readMagnitude]
      simp only [toBeBytes, map_cons, extend_cons, cons_append,
        TupleReader.byte, xor_mask_mask, bind, Except.bind, digit]

/-- The magnitude bytes that follow a tag are as many as the tag says. -/
theorem intLen_intCode
    {magnitude : Nat} (negative : Bool)
    (nonzero : magnitude ≠ 0)
    (fits : magnitude < 2 ^ 64) :
    intLen (intCode negative magnitude) = magnitudeLen magnitude ∧
      (!decide (intCode negative magnitude > Codes.INT_ZERO)) = negative ∧
      intCode negative magnitude ≠ Codes.INT_ZERO ∧
      Codes.isInt (intCode negative magnitude) = true := by
  have bounds := magnitudeLen_bounds nonzero fits
  have zeroCode : Codes.INT_ZERO.toNat = 0x15 := rfl
  have lowCode : Codes.INT_MIN.toNat = 0x0D := rfl
  have highCode : Codes.INT_MAX.toNat = 0x1D := rfl
  cases negative with
  | false =>
      have tag := intCode_false_toNat nonzero fits
      have above : intCode false magnitude > Codes.INT_ZERO := by
        rw [gt_iff_lt, UInt8.lt_iff_toNat_lt]
        omega
      refine ⟨?_, by simp [above], ?_, ?_⟩
      · rw [intLen, if_pos above, UInt8.toNat_sub_of_le _ _ (UInt8.le_of_lt above)]
        omega
      · intro same
        rw [same] at tag
        omega
      · simp only [Codes.isInt, UInt8.le_iff_toNat_le, Bool.and_eq_true,
          decide_eq_true_eq]
        omega
  | true =>
      have tag := intCode_true_toNat nonzero fits
      have below : ¬ intCode true magnitude > Codes.INT_ZERO := by
        rw [gt_iff_lt, UInt8.lt_iff_toNat_lt]
        omega
      refine ⟨?_, by simp [below], ?_, ?_⟩
      · rw [intLen, if_neg below, UInt8.toNat_sub_of_le _ _
          (by rw [UInt8.le_iff_toNat_le]; omega)]
        omega
      · intro same
        rw [same] at tag
        omega
      · simp only [Codes.isInt, UInt8.le_iff_toNat_le, Bool.and_eq_true,
          decide_eq_true_eq]
        omega

/-- An integer is its tag, from which its sign and magnitude are read. -/
theorem readIntBody_reads
    (pos start : Nat) (mask : UInt8) (number : Int) (rest : Bytes)
    (fits : number.natAbs < 2 ^ 64) :
    ∃ code digits, pushInt mask (number < 0) number.natAbs =
        extend mask [code] ++ digits ∧
      Codes.isInt code = true ∧
      digits.length = intLen code ∧
      Reads (readIntBody ⟨pos, digits ++ rest⟩ code mask start)
        (decide (number < 0), number.natAbs) rest := by
  by_cases zero : number = 0
  · subst zero
    refine ⟨Codes.INT_ZERO, [], by simp [pushInt], by decide, by decide,
      pos, ?_⟩
    simp [readIntBody]
  · have nonzero : number.natAbs ≠ 0 := Int.natAbs_ne_zero.mpr zero
    have bounds := magnitudeLen_bounds nonzero fits
    obtain ⟨len, sign, notZero, isInt⟩ :=
      intLen_intCode (decide (number < 0)) nonzero fits
    refine ⟨intCode (number < 0) number.natAbs,
      extend mask ((toBeBytes (magnitudeLen number.natAbs) number.natAbs).map
          (fun byte => if decide (number < 0) then ~~~byte else byte)),
      ?_, isInt, ?_, ?_⟩
    · rw [pushInt_mask, pushInt_nonzero _ nonzero fits, ← extend_append]
      rfl
    · simp [len]
    · obtain ⟨stop, read⟩ := readMagnitude_reads pos (magnitudeLen number.natAbs)
        number.natAbs 0 mask (decide (number < 0)) rest
      refine ⟨stop, ?_⟩
      rw [readIntBody, if_neg notZero]
      simp only [len, sign, read, bind, Except.bind, zero_mul, zero_add,
        Nat.mod_eq_of_lt bounds.2.2.2, ne_eq, not_true_eq_false, if_false]

theorem readVector_reads
    (pos : Nat) (mask : UInt8) (elements : List F32) (rest : Bytes) :
    Reads (readVector mask elements.length ⟨pos, extend mask (elements.flatMap
          (fun element => toBeBytes 4 (f32ToOrdered element).toNat)) ++
          rest⟩)
      (elements.map F32.canonical) rest := by
  induction elements generalizing pos with
  | nil => exact ⟨pos, rfl⟩
  | cons element elements ih =>
      obtain ⟨stop, read⟩ := ih (pos + 4)
      refine ⟨stop, ?_⟩
      have head := take_reads pos mask (toBeBytes 4 (f32ToOrdered element).toNat)
        (extend mask (elements.flatMap
          (fun element => toBeBytes 4 (f32ToOrdered element).toNat)) ++ rest)
      rw [length_toBeBytes] at head
      have back : orderedToFloat (BitVec.ofNat 32
          (fromBeBytes (toBeBytes 4 (f32ToOrdered element).toNat))) =
          F32.canonical element := by
        rw [fromBeBytes_toBeBytes (f32ToOrdered element).isLt,
          BitVec.ofNat_toNat, BitVec.setWidth_eq]
        exact orderedToFloat_floatToOrdered _
      rw [length_cons, flatMap_cons, extend_append, append_assoc, readVector]
      simp only [head, read, back, bind, Except.bind, pure, Except.pure, map_cons]

/-! ## Whole elements -/

theorem widened_natAbs
    (number : Int) :
    widened (decide (number < 0)) number.natAbs = number := by
  unfold widened
  by_cases negative : number < 0
  · simp only [negative, decide_true, if_true]
    omega
  · simp only [negative, decide_false, Bool.false_eq_true, if_false]
    omega

theorem orderedToFloat_f64
    (value : F64) :
    orderedToFloat (BitVec.ofNat 64
        (fromBeBytes (toBeBytes 8 (f64ToOrdered value).toNat))) =
      F64.canonical value := by
  rw [fromBeBytes_toBeBytes (f64ToOrdered value).isLt, BitVec.ofNat_toNat,
    BitVec.setWidth_eq]
  exact orderedToFloat_floatToOrdered _

theorem fromUTF8_utf8
    (text : String) :
    String.fromUTF8? ⟨⟨utf8 text⟩⟩ = some text := by
  have whole : (⟨⟨utf8 text⟩⟩ : ByteArray) = text.toByteArray := by
    rw [utf8]
  rw [whole, String.fromUTF8?, dif_pos text.isValidUTF8]
  rfl

theorem uuidFromBytes_bytes
    (value : Uuid) :
    uuidFromBytes value.bytes = value := by
  have taken : (value.bytes ++ replicate 16 0).take 16 =
      value.bytes := by
    rw [← value.sixteen, take_left]
  cases value
  simp only [uuidFromBytes, Uuid.mk.injEq]
  exact taken

/-- An element that is not an integer starts with the code of its type. -/
theorem encodeValue_code
    (direction : Direction) (value : Value)
    (notInteger : value.asI128 = none) :
    ∃ code payload, encodeValue direction value =
        extend direction.mask [code] ++ payload ∧
      Codes.isInt code = false ∧
      codeName code = value.valueType ∧
      (code = Codes.NULL ↔ value = .null) ∧
      (code = Codes.ARRAY ↔ ∃ elements, value = .array elements) ∧
      code ≠ Codes.NUL := by
  cases value with
  | bool value =>
      cases value with
      | false
      | true =>
          exact ⟨_, [], (append_nil _).symm, rfl, rfl,
            iff_of_false (by decide) (by simp),
            iff_of_false (by decide) (by simp), by decide⟩
  | null =>
      exact ⟨Codes.NULL, [], by simp [encodeValue], rfl, rfl, by simp,
        by simp [Codes.NULL, Codes.ARRAY], by decide⟩
  | bytes value
  | str value
  | f64 value
  | decimal units
  | uuid value =>
      exact ⟨_, _, rfl, rfl, rfl, iff_of_false (by decide) (by simp),
        iff_of_false (by decide) (by simp), by decide⟩
  | vector elements =>
      exact ⟨Codes.VECTOR, _, by rw [encodeValue, append_assoc], rfl,
        rfl, iff_of_false (by decide) (by simp),
        iff_of_false (by decide) (by simp), by decide⟩
  | array elements =>
      exact ⟨Codes.ARRAY, _, by rw [encodeValue, append_assoc], rfl,
        rfl, by simp [Codes.ARRAY, Codes.NULL], by simp, by decide⟩
  | i64 value
  | u64 value => cases notInteger

/-- A body other than an array's is read back in canonical form. -/
theorem readBodyWith_reads
    (array : TupleReader → Except TupleError (Value × TupleReader))
    (direction : Direction) (value : Value) (pos start : Nat) (rest : Bytes)
    (notInteger : value.asI128 = none)
    (notNull : value ≠ .null)
    (notArray : ∀ elements, value ≠ .array elements) :
    ∃ code payload, encodeValue direction value =
        extend direction.mask [code] ++ payload ∧
      Reads (readBodyWith array ⟨pos, payload ++ rest⟩ code direction.mask start)
        value.cut.canonical rest := by
  cases value with
  | null => exact absurd rfl notNull
  | i64 value
  | u64 value => cases notInteger
  | array elements => exact absurd rfl (notArray elements)
  | bool value =>
      cases value with
      | false =>
          refine ⟨Codes.FALSE, [], by simp [encodeValue], pos, ?_⟩
          rw [readBodyWith, if_pos rfl]
          rfl
      | true =>
          refine ⟨Codes.TRUE, [], by simp [encodeValue], pos, ?_⟩
          rw [readBodyWith, if_neg (by decide), if_pos rfl]
          rfl
  | bytes value =>
      obtain ⟨stop, read⟩ := readEscapedFrom_reads pos direction.mask value rest
      refine ⟨Codes.BYTES, _, rfl, stop, ?_⟩
      rw [readBodyWith, if_neg (by decide), if_neg (by decide), if_pos rfl,
        readEscaped, read]
      rfl
  | str text =>
      obtain ⟨stop, read⟩ := readEscapedFrom_reads pos direction.mask (utf8 text) rest
      refine ⟨Codes.STR, _, rfl, stop, ?_⟩
      rw [readBodyWith, if_neg (by decide), if_neg (by decide),
        if_neg (by decide), if_pos rfl, readEscaped, read]
      simp only [bind, Except.bind, fromUTF8_utf8]
      rfl
  | decimal units =>
      have low := units.le_toInt
      have high := units.toInt_lt
      obtain ⟨code, digits, written, isInt, -, stop, read⟩ := readIntBody_reads
        (pos + 1) start direction.mask units.toInt rest (int64_natAbs_lt units)
      refine ⟨Codes.DECIMAL, _, rfl, stop, ?_⟩
      rw [readBodyWith, if_neg (by decide), if_neg (by decide),
        if_neg (by decide), if_neg (by decide), if_pos rfl, written,
        append_assoc, byte_reads]
      simp only [bind, Except.bind, isInt, Bool.not_true, Bool.false_eq_true, if_false,
        read, widened_natAbs, tryI64, if_pos (And.intro low high), Int64.ofInt_toInt]
      rfl
  | f64 value =>
      have read := take_reads pos direction.mask
        (toBeBytes 8 (f64ToOrdered value).toNat) rest
      rw [length_toBeBytes] at read
      refine ⟨Codes.F64, _, rfl, pos + 8, ?_⟩
      rw [readBodyWith, if_neg (by decide), if_neg (by decide),
        if_neg (by decide), if_neg (by decide), if_neg (by decide),
        if_pos rfl, read]
      simp only [bind, Except.bind, orderedToFloat_f64]
      rfl
  | uuid value =>
      have read := take_reads pos direction.mask value.bytes rest
      rw [value.sixteen] at read
      refine ⟨Codes.UUID, _, rfl, pos + 16, ?_⟩
      rw [readBodyWith, if_neg (by decide), if_neg (by decide),
        if_neg (by decide), if_neg (by decide), if_neg (by decide),
        if_neg (by decide), if_pos rfl, read]
      simp only [bind, Except.bind, uuidFromBytes_bytes]
      rfl
  | vector elements =>
      have counted : elements.take (min elements.length u32Max) =
          elements.take u32Max := by
        rw [take_eq_take_iff]
        omega
      have count : (elements.take u32Max).length = min elements.length u32Max := by
        rw [length_take, Nat.min_comm]
      have small : min elements.length u32Max < 256 ^ 4 :=
        lt_of_le_of_lt (Nat.min_le_right ..) (by decide)
      have head := take_reads pos direction.mask
        (toBeBytes 4 (min elements.length u32Max))
        (extend direction.mask ((elements.take u32Max).flatMap
          (fun element => toBeBytes 4 (f32ToOrdered element).toNat)) ++ rest)
      rw [length_toBeBytes] at head
      obtain ⟨stop, read⟩ := readVector_reads (pos + 4) direction.mask
        (elements.take u32Max) rest
      rw [count] at read
      refine ⟨Codes.VECTOR, _, by rw [encodeValue, append_assoc], stop,
        ?_⟩
      rw [readBodyWith, if_neg (by decide), if_neg (by decide),
        if_neg (by decide), if_neg (by decide), if_neg (by decide),
        if_neg (by decide), if_neg (by decide), if_pos rfl, takeU32,
        counted, append_assoc, head]
      simp only [bind, Except.bind, pure, Except.pure,
        fromBeBytes_toBeBytes small, read, Value.cut, Value.canonical]

variable {value : Value} {number : Int} {direction : Direction}
  {reader after : TupleReader} {mask : UInt8}

/-- An integer element is read back as its number asks. -/
theorem readDynamicWith_reads_integer
    (array : TupleReader → Except TupleError (Value × TupleReader))
    (direction : Direction)
    (widened : value.asI128 = some number)
    (pos : Nat) (rest : Bytes) :
    Reads (readDynamicWith array ⟨pos, encodeValue direction value ++ rest⟩
        direction.mask)
      value.canonical rest := by
  obtain ⟨word, fits⟩ := encodeValue_of_asI128 widened
  have written : encodeValue direction value =
      pushInt direction.mask (number < 0) number.natAbs := by
    rw [encodeValue_mask, word, pushInt_mask direction.mask]
  obtain ⟨code, digits, pushed, isInt, -, stop, read⟩ :=
    readIntBody_reads (pos + 1) pos direction.mask number rest fits
  have notNull : code ≠ Codes.NULL := by
    rintro rfl
    cases isInt
  refine ⟨stop, ?_⟩
  rw [written, pushed, append_assoc, readDynamicWith, byte_reads]
  simp only [bind, Except.bind, notNull, if_false, isInt, if_true, read, widened_natAbs]
  rw [Value.canonical_of_asI128 widened, Value.ofI128]
  cases signed : tryI64 number with
  | some value' => rfl
  | none =>
      have magnitude : number.natAbs = number.toNat := by
        cases value with
        | i64 value =>
            obtain rfl := Option.some.inj widened
            rw [tryI64, if_pos ⟨value.le_toInt, value.toInt_lt⟩] at signed
            cases signed
        | u64 value =>
            obtain rfl := Option.some.inj widened
            rfl
        | _ => cases widened
      rw [magnitude]

/-- An element other than an array is read back in canonical form. -/
theorem readDynamicWith_reads
    (array : TupleReader → Except TupleError (Value × TupleReader))
    (direction : Direction) (value : Value) (pos : Nat) (rest : Bytes)
    (notArray : ∀ elements, value ≠ .array elements) :
    Reads (readDynamicWith array ⟨pos, encodeValue direction value ++ rest⟩
        direction.mask)
      value.cut.canonical rest := by
  cases integer : value.asI128 with
  | some number =>
      have uncut : value.cut = value := by
        cases value <;> first | rfl | cases integer
      rw [uncut]
      exact readDynamicWith_reads_integer array direction integer pos rest
  | none =>
      by_cases isNull : value = .null
      · subst isNull
        refine ⟨pos + 1, ?_⟩
        rw [encodeValue, readDynamicWith, byte_reads]
        rfl
      · obtain ⟨code, payload, written, notInt, -, codeNull, -, -⟩ :=
          encodeValue_code direction value integer
        obtain ⟨code', payload', written', stop, read⟩ := readBodyWith_reads
          array direction value (pos + 1) pos rest integer isNull notArray
        have same := written.symm.trans written'
        simp only [extend_cons, extend_nil, cons_append, nil_append,
          cons.injEq] at same
        obtain ⟨codes, rfl⟩ := same
        have codesSame : code = code' := by
          rw [← xor_mask_mask code direction.mask, codes, xor_mask_mask]
        subst codesSame
        refine ⟨stop, ?_⟩
        rw [written, append_assoc, readDynamicWith, byte_reads]
        simp only [bind, Except.bind, codeNull, isNull, if_false, notInt,
          Bool.false_eq_true, read]

/-! ## Arrays -/

theorem encodeValue_first
    (direction : Direction) (value : Value) :
    ∃ code payload, encodeValue direction value =
        extend direction.mask [code] ++ payload ∧
      code ≠ Codes.NUL ∧
      (code = Codes.ARRAY ↔ value.isArray = true) := by
  obtain ⟨code, payload, written, rank, positive, -⟩ := encodeValue_lead value
  refine ⟨code, extend direction.mask payload, ?_, ?_, ?_⟩
  · rw [encodeValue_mask, written]
    rfl
  · exact (UInt8.ne_of_lt positive).symm
  · constructor
    · rintro rfl
      have nine : (9 : Nat) = value.classRank := rank
      cases value <;> first | rfl | cases nine
    · intro isArray
      obtain ⟨elements, rfl⟩ := value.isArray_iff.mp isArray
      rw [encodeValue] at written
      simp only [extend_ascMask, cons_append, nil_append, cons.injEq] at written
      exact written.1.symm

/-- The elements of a flat array are read back in canonical form. -/
theorem readArrayElements_reads
    (direction : Direction) (elements : List Value) (fuel pos : Nat)
    (rest : Bytes)
    (flat : elements.all (fun element => !element.isArray) = true)
    (enough : elements.length < fuel) :
    Reads (readArrayElements direction.mask fuel
        ⟨pos, encodeElements direction elements ++
          (extend direction.mask [Codes.NUL] ++ rest)⟩)
      (elements.map (fun element => element.cut.canonical)) rest := by
  induction elements generalizing fuel pos with
  | nil =>
      cases fuel with
      | zero => simp at enough
      | succ fuel =>
          refine ⟨pos + 1, ?_⟩
          rw [encodeElements, nil_append, readArrayElements, byte_reads]
          simp [bind, Except.bind]
  | cons element elements ih =>
      cases fuel with
      | zero => simp at enough
      | succ fuel =>
          rw [all_cons, Bool.and_eq_true, Bool.not_eq_true'] at flat
          obtain ⟨scalar, flat⟩ := flat
          obtain ⟨code, payload, written, notEnd, codeArray⟩ :=
            encodeValue_first direction element
          have notArray : ∀ inner, element ≠ .array inner := by
            rintro inner rfl
            cases scalar
          obtain ⟨stop, read⟩ := readDynamicWith_reads
            (fun _ => .error (.unknownTypeCode pos code)) direction element
            pos (encodeElements direction elements ++
              (extend direction.mask [Codes.NUL] ++ rest)) notArray
          obtain ⟨stop', read'⟩ := ih fuel stop flat (by simpa using enough)
          have first := byte_reads pos direction.mask code
            (payload ++ (encodeElements direction elements ++
              (extend direction.mask [Codes.NUL] ++ rest)))
          rw [← append_assoc, ← written] at first
          have notNested : code ≠ Codes.ARRAY := by
            rw [ne_eq, codeArray, scalar]
            decide
          refine ⟨stop', ?_⟩
          rw [encodeElements, append_assoc, readArrayElements, first]
          simp only [bind, Except.bind, notEnd, if_false, notNested, read,
            read', pure, Except.pure, map_cons]

/-- An array with an array inside is not read. -/
theorem readArrayElements_fails
    (direction : Direction) (elements : List Value) (fuel pos : Nat)
    (rest : Bytes)
    (nested : elements.all (fun element => !element.isArray) = false) :
    ∃ error, readArrayElements direction.mask fuel
        ⟨pos, encodeElements direction elements ++ rest⟩ =
        .error error := by
  induction elements generalizing fuel pos with
  | nil => cases nested
  | cons element elements ih =>
      cases fuel with
      | zero => exact ⟨_, rfl⟩
      | succ fuel =>
          obtain ⟨code, payload, written, notEnd, codeArray⟩ :=
            encodeValue_first direction element
          have first := byte_reads pos direction.mask code
            (payload ++ (encodeElements direction elements ++ rest))
          rw [← append_assoc, ← written] at first
          rw [encodeElements, append_assoc, readArrayElements, first]
          cases scalar : element.isArray with
          | true =>
              refine ⟨.unknownTypeCode pos code, ?_⟩
              have isNested := codeArray.mpr scalar
              simp only [bind, Except.bind]
              rw [if_neg notEnd, if_pos isNested]
          | false =>
              have notArray : ∀ inner, element ≠ .array inner := by
                rintro inner rfl
                cases scalar
              have notNested : code ≠ Codes.ARRAY := by
                rw [ne_eq, codeArray, scalar]
                decide
              rw [all_cons, scalar] at nested
              obtain ⟨stop, read⟩ := readDynamicWith_reads
                (fun _ => .error (.unknownTypeCode pos code)) direction element
                pos (encodeElements direction elements ++ rest) notArray
              obtain ⟨error, failed⟩ := ih fuel stop (by simpa using nested)
              refine ⟨error, ?_⟩
              simp only [bind, Except.bind, notEnd, if_false, notNested, read, failed]

theorem length_le_encodeElements
    (direction : Direction) (elements : List Value) :
    elements.length ≤ (encodeElements direction elements).length := by
  induction elements with
  | nil => simp
  | cons element elements ih =>
      obtain ⟨code, payload, written, -, -⟩ := encodeValue_first direction element
      rw [encodeElements, written]
      simp
      omega

theorem readArray_reads
    (direction : Direction) (elements : List Value) (pos : Nat) (rest : Bytes)
    (flat : (Value.array elements).flat = true) :
    Reads (readArray ⟨pos, encodeElements direction elements ++
          (extend direction.mask [Codes.NUL] ++ rest)⟩ direction.mask)
      (Value.array elements).cut.canonical rest := by
  have longEnough := length_le_encodeElements direction elements
  obtain ⟨stop, read⟩ := readArrayElements_reads direction elements
    ((encodeElements direction elements ++
      (extend direction.mask [Codes.NUL] ++ rest)).length + 1)
    pos rest flat (by simp only [length_append]; omega)
  refine ⟨stop, ?_⟩
  rw [readArray]
  simp only [read, bind, Except.bind, pure, Except.pure, Value.cut,
    Value.canonical, Value.canonicalList_eq_map, Value.cutList_eq_map, map_map]
  rfl

theorem readDynamic_reads
    (direction : Direction) (value : Value) (pos : Nat) (rest : Bytes)
    (flat : value.flat = true) :
    Reads (readDynamicMasked ⟨pos, encodeValue direction value ++ rest⟩ direction.mask)
      value.cut.canonical rest := by
  cases scalar : value.isArray with
  | false =>
      apply readDynamicWith_reads
      rintro elements rfl
      cases scalar
  | true =>
      obtain ⟨elements, rfl⟩ := value.isArray_iff.mp scalar
      obtain ⟨stop, read⟩ := readArray_reads direction elements (pos + 1) rest flat
      refine ⟨stop, ?_⟩
      rw [encodeValue, append_assoc, append_assoc,
        readDynamicMasked, readDynamicWith, byte_reads]
      simp only [bind, Except.bind]
      rw [if_neg (by decide), if_neg (by decide), readBodyWith,
        if_neg (by decide), if_neg (by decide), if_neg (by decide),
        if_neg (by decide), if_neg (by decide), if_neg (by decide),
        if_neg (by decide), if_neg (by decide), if_pos rfl, read]

theorem readDynamic_fails
    (direction : Direction) (value : Value) (pos : Nat) (rest : Bytes)
    (nested : value.flat = false) :
    ∃ error, readDynamicMasked ⟨pos, encodeValue direction value ++ rest⟩
        direction.mask = .error error := by
  obtain ⟨elements, rfl⟩ : ∃ elements, value = .array elements := by
    cases value <;> first | exact ⟨_, rfl⟩ | cases nested
  obtain ⟨error, failed⟩ := readArrayElements_fails direction elements
    ((encodeElements direction elements ++ (extend direction.mask [Codes.NUL] ++
    rest)).length + 1) (pos + 1) (extend direction.mask [Codes.NUL] ++ rest) nested
  refine ⟨error, ?_⟩
  rw [encodeValue, append_assoc, append_assoc,
    readDynamicMasked, readDynamicWith, byte_reads]
  simp only [bind, Except.bind]
  rw [if_neg (by decide), if_neg (by decide), readBodyWith,
    if_neg (by decide), if_neg (by decide), if_neg (by decide),
    if_neg (by decide), if_neg (by decide), if_neg (by decide),
    if_neg (by decide), if_neg (by decide), if_pos rfl, readArray]
  simp only [failed, bind, Except.bind]

/-! ## Typed reads -/

/-- An integer element is read as either integer type that can hold it. -/
theorem read_integer
    (direction : Direction)
    (widened : value.asI128 = some number)
    (type : ValueType) (pos : Nat) (rest : Bytes) :
    ∃ stop, TupleReader.read ⟨pos, encodeValue direction value ++ rest⟩ type direction =
        match type with
        | .i64 =>
            match tryI64 number with
            | some value => .ok (.i64 value, ⟨stop, rest⟩)
            | none => .error (.integerOutOfRange pos number "i64")
        | .u64 =>
            match tryU64 number with
            | some value => .ok (.u64 value, ⟨stop, rest⟩)
            | none => .error (.integerOutOfRange pos number "u64")
        | other => .error (.typeMismatch pos other.name "integer") := by
  obtain ⟨word, fits⟩ := encodeValue_of_asI128 widened
  have written : encodeValue direction value =
      pushInt direction.mask (number < 0) number.natAbs := by
    rw [encodeValue_mask, word, pushInt_mask direction.mask]
  obtain ⟨code, digits, pushed, isInt, -, stop, body⟩ :=
    readIntBody_reads (pos + 1) pos direction.mask number rest fits
  have notNull : code ≠ Codes.NULL := by
    rintro rfl
    cases isInt
  refine ⟨stop, ?_⟩
  rw [written, pushed, append_assoc, TupleReader.read, byte_reads]
  simp only [bind, Except.bind, notNull, if_false, isInt, if_true,
    readIntAs, body, widened_natAbs]
  cases type <;> rfl

/-- An element of another type is read as it is found, or not at all. -/
theorem read_other
    (direction : Direction) (value : Value) (type : ValueType) (pos : Nat)
    (rest : Bytes)
    (notInteger : value.asI128 = none) :
    TupleReader.read ⟨pos, encodeValue direction value ++ rest⟩ type direction =
      match value.valueType with
      | none => .ok (.null, ⟨pos + 1, rest⟩)
      | some found =>
          if found ≠ type then
            .error (.typeMismatch pos type.name found.name)
          else
            readDynamicMasked ⟨pos, encodeValue direction value ++ rest⟩
              direction.mask := by
  obtain ⟨code, payload, written, notInt, name, codeNull, -, -⟩ :=
    encodeValue_code direction value notInteger
  by_cases isNull : value = .null
  · subst isNull
    rw [encodeValue, TupleReader.read, byte_reads]
    rfl
  · have notNull : code ≠ Codes.NULL := by
      rwa [ne_eq, codeNull]
    rw [written, append_assoc, TupleReader.read, readDynamicMasked,
      readDynamicWith, byte_reads]
    simp only [bind, Except.bind, notNull, if_false, notInt, Bool.false_eq_true, name]
    cases valueType : value.valueType with
    | none => cases value <;> first | exact absurd rfl isNull | cases valueType
    | some found => rfl

theorem tryI64_toInt
    (value : Int64) :
    tryI64 value.toInt = some value := by
  rw [tryI64, if_pos ⟨value.le_toInt, value.toInt_lt⟩, Int64.ofInt_toInt]

theorem tryU64_toNat
    (value : UInt64) :
    tryU64 value.toNat = some value := by
  have small := value.toNat_lt
  rw [tryU64, if_pos ⟨by omega, by omega⟩, Int.toNat_natCast, UInt64.ofNat_toNat]

theorem asI128_of_tryI64
    {value : Int64}
    (narrowed : tryI64 number = some value) :
    (Value.i64 value).asI128 = some number := by
  unfold tryI64 at narrowed
  split at narrowed
  case isTrue bounds =>
    obtain rfl := Option.some.inj narrowed
    rw [Value.asI128, Int64.toInt_ofInt_of_le (by omega) (by omega)]
  case isFalse => cases narrowed

theorem asI128_of_tryU64
    {value : UInt64}
    (narrowed : tryU64 number = some value) :
    (Value.u64 value).asI128 = some number := by
  unfold tryU64 at narrowed
  split at narrowed
  case isTrue bounds =>
    obtain rfl := Option.some.inj narrowed
    have small : number.toNat < 2 ^ 64 := by omega
    rw [Value.asI128, UInt64.toNat_ofNat', Nat.mod_eq_of_lt small]
    congr 1
    omega
  case isFalse => cases narrowed

/-- What a typed reader returns is the element, whatever its type. -/
theorem read_spec
    {value found : Value} {type : ValueType} {pos : Nat} {rest : Bytes}
    {reader : TupleReader}
    (success : TupleReader.read ⟨pos, encodeValue direction value ++ rest⟩ type
        direction = .ok (found, reader)) :
    found.canonical = value.cut.canonical ∧ reader.remainder = rest := by
  cases integer : value.asI128 with
  | some number =>
      have uncut : value.cut = value := by
        cases value <;> first | rfl | cases integer
      obtain ⟨stop, read⟩ := read_integer direction integer type pos rest
      rw [read] at success
      rw [uncut, Value.canonical_of_asI128 integer]
      cases type with
      | i64 =>
          cases narrowed : tryI64 number with
          | none => simp [narrowed] at success
          | some value =>
              simp only [narrowed, Except.ok.injEq, Prod.mk.injEq] at success
              obtain ⟨rfl, rfl⟩ := success
              exact ⟨Value.canonical_of_asI128 (asI128_of_tryI64 narrowed), rfl⟩
      | u64 =>
          cases narrowed : tryU64 number with
          | none => simp [narrowed] at success
          | some value =>
              simp only [narrowed, Except.ok.injEq, Prod.mk.injEq] at success
              obtain ⟨rfl, rfl⟩ := success
              exact ⟨Value.canonical_of_asI128 (asI128_of_tryU64 narrowed), rfl⟩
      | _ => cases success
  | none =>
      rw [read_other direction value type pos rest integer] at success
      cases valueType : value.valueType with
      | none =>
          rw [valueType] at success
          have isNull : value = .null := by
            cases value <;> first | rfl | cases valueType
          cases success
          exact ⟨by rw [isNull]; rfl, rfl⟩
      | some found' =>
          rw [valueType] at success
          by_cases sameType : found' = type
          · simp only [sameType, ne_eq, not_true_eq_false, if_false] at success
            cases flat : value.flat with
            | true =>
                obtain ⟨stop, read⟩ := readDynamic_reads direction value pos rest flat
                rw [read] at success
                cases success
                exact ⟨Value.canonical_canonical _, rfl⟩
            | false =>
                obtain ⟨error, failed⟩ :=
                  readDynamic_fails direction value pos rest flat
                rw [failed] at success
                cases success
          · simp [sameType] at success

/-- A flat element is read back by a reader of its type. -/
theorem read_reads
    (direction : Direction) (value : Value) (type : ValueType) (pos : Nat)
    (rest : Bytes)
    (flat : value.flat = true)
    (typed : value.valueType = some type ∨ value = .null) :
    Reads (TupleReader.read ⟨pos, encodeValue direction value ++ rest⟩ type direction)
      value.decoded rest := by
  cases integer : value.asI128 with
  | some number =>
      obtain ⟨stop, read⟩ := read_integer direction integer type pos rest
      refine ⟨stop, ?_⟩
      rw [read]
      cases value with
      | i64 value =>
          obtain rfl := Option.some.inj integer
          obtain rfl : ValueType.i64 = type := by
            rcases typed with typed | typed
            · exact Option.some.inj typed
            · cases typed
          rw [tryI64_toInt]
          rfl
      | u64 value =>
          obtain rfl := Option.some.inj integer
          obtain rfl : ValueType.u64 = type := by
            rcases typed with typed | typed
            · exact Option.some.inj typed
            · cases typed
          rw [tryU64_toNat]
          rfl
      | _ => cases integer
  | none =>
      have same : value.decoded = value.cut.canonical := by
        cases value with
        | i64 value
        | u64 value => cases integer
        | _ => rfl
      rw [read_other direction value type pos rest integer, same]
      rcases typed with typed | rfl
      · rw [typed]
        simpa using readDynamic_reads direction value pos rest flat
      · exact ⟨pos + 1, rfl⟩

/-! ## Skipping -/

theorem advance_add
    {reader middle last : TupleReader} {first second : Nat}
    (firstly : reader.advance first = .ok middle)
    (secondly : middle.advance second = .ok last) :
    reader.advance (first + second) = .ok last := by
  unfold advance at firstly secondly ⊢
  split at firstly
  case isFalse => cases firstly
  case isTrue enough =>
    cases firstly
    split at secondly
    case isFalse => cases secondly
    case isTrue enough' =>
      cases secondly
      simp only [skipped, length_drop] at enough' ⊢
      rw [if_pos (by omega), drop_drop, Nat.add_assoc]

theorem advance_of_byte
    {mask byte : UInt8}
    (success : reader.byte mask = .ok (byte, after)) :
    reader.advance 1 = .ok after := by
  obtain ⟨pos, remainder⟩ := reader
  cases remainder with
  | nil => cases success
  | cons head rest =>
      cases success
      simp [advance, skipped]

theorem advance_of_take
    {count : Nat} {bytes : Bytes}
    (success : reader.take count mask = .ok (bytes, after)) :
    reader.advance count = .ok after := by
  rw [advance_eq reader count mask, success]
  rfl

theorem advance_of_readMagnitude
    {negative : Bool} {len start magnitude : Nat}
    (success : readMagnitude mask negative len start reader = .ok (magnitude, after)) :
    reader.advance len = .ok after := by
  induction len generalizing reader start with
  | zero =>
      cases success
      simp [advance, skipped]
  | succ len ih =>
      rw [readMagnitude] at success
      obtain ⟨⟨byte, next⟩, read, success⟩ := bind_eq_ok.mp success
      rw [Nat.add_comm]
      exact advance_add (advance_of_byte read) (ih success)

theorem advance_of_readIntBody
    {code mask : UInt8} {start : Nat} {number : Bool × Nat}
    (success : reader.readIntBody code mask start = .ok (number, after)) :
    reader.advance (intLen code) = .ok after := by
  unfold readIntBody at success
  split at success
  case isTrue zero =>
    cases success
    simp [zero, intLen, advance, skipped]
  case isFalse =>
    obtain ⟨⟨magnitude, next⟩, read, success⟩ := bind_eq_ok.mp success
    dsimp only at success
    split at success
    case isTrue => cases success
    case isFalse =>
      cases success
      exact advance_of_readMagnitude read

theorem advance_of_readVector
    {count : Nat} {elements : List F32}
    (success : readVector mask count reader = .ok (elements, after)) :
    reader.advance (count * 4) = .ok after := by
  induction count generalizing reader elements with
  | zero =>
      cases success
      simp [advance, skipped]
  | succ count ih =>
      rw [readVector] at success
      obtain ⟨⟨raw, next⟩, read, success⟩ := bind_eq_ok.mp success
      obtain ⟨⟨tail, last⟩, read', success⟩ := bind_eq_ok.mp success
      cases success
      rw [Nat.succ_mul, Nat.add_comm]
      exact advance_add (advance_of_take read) (ih read')

/-- Reading an element is skipping it, if reading an array's body is. -/
theorem skipWith_of_readDynamicWith
    {array : TupleReader → Except TupleError (Value × TupleReader)}
    {skipArray : TupleReader → Except TupleError TupleReader}
    (arrays : ∀ reader value after,
      array reader = .ok (value, after) → skipArray reader = .ok after)
    (success : readDynamicWith array reader mask = .ok (value, after)) :
    skipWith skipArray reader mask = .ok after := by
  rw [readDynamicWith] at success
  obtain ⟨⟨code, next⟩, read, success⟩ := bind_eq_ok.mp success
  dsimp only at success
  rw [skipWith, read]
  simp only [bind, Except.bind]
  by_cases isNull : code = Codes.NULL
  · rw [if_pos isNull] at success
    cases success
    rw [if_pos (.inl isNull)]
  rw [if_neg isNull] at success
  by_cases isInt : Codes.isInt code = true
  · rw [if_pos isInt] at success
    obtain ⟨⟨number, next'⟩, read', success⟩ := bind_eq_ok.mp success
    have small : ¬ (code = Codes.NULL ∨ code = Codes.FALSE ∨ code = Codes.TRUE) := by
      rintro (rfl | rfl | rfl) <;> cases isInt
    have moved := advance_of_readIntBody read'
    rw [if_neg small, if_pos isInt, moved]
    dsimp only at success
    split at success <;> cases success <;> rfl
  rw [if_neg isInt] at success
  unfold readBodyWith at success
  by_cases isFalse : code = Codes.FALSE
  · rw [if_pos isFalse] at success
    cases success
    rw [if_pos (.inr (.inl isFalse))]
  rw [if_neg isFalse] at success
  by_cases isTrue : code = Codes.TRUE
  · rw [if_pos isTrue] at success
    cases success
    rw [if_pos (.inr (.inr isTrue))]
  rw [if_neg isTrue] at success
  have notSmall : ¬ (code = Codes.NULL ∨ code = Codes.FALSE ∨ code = Codes.TRUE) := by
    simp [isNull, isFalse, isTrue]
  rw [if_neg notSmall, if_neg isInt]
  by_cases isBytes : code = Codes.BYTES
  · rw [if_pos isBytes] at success
    obtain ⟨⟨raw, next'⟩, read', success⟩ := bind_eq_ok.mp success
    cases success
    rw [if_pos (.inl isBytes), skipEscapedFrom_eq]
    rw [readEscaped] at read'
    rw [read']
    rfl
  rw [if_neg isBytes] at success
  by_cases isStr : code = Codes.STR
  · rw [if_pos isStr] at success
    obtain ⟨⟨raw, next'⟩, read', success⟩ := bind_eq_ok.mp success
    dsimp only at success
    rw [if_pos (.inr isStr), skipEscapedFrom_eq]
    rw [readEscaped] at read'
    rw [read']
    split at success <;> cases success
    rfl
  rw [if_neg isStr] at success
  have notText : ¬ (code = Codes.BYTES ∨ code = Codes.STR) := by
    simp [isBytes, isStr]
  rw [if_neg notText]
  by_cases isDecimal : code = Codes.DECIMAL
  · rw [if_pos isDecimal] at success
    have notFloat : code ≠ Codes.F64 := by
      rw [isDecimal]
      decide
    obtain ⟨⟨inner, next'⟩, read', success⟩ := bind_eq_ok.mp success
    dsimp only at success
    rw [if_neg notFloat, if_pos isDecimal, read']
    split at success
    case isTrue => cases success
    case isFalse isNumber =>
      obtain ⟨⟨number, next''⟩, read'', success⟩ := bind_eq_ok.mp success
      dsimp only at success ⊢
      rw [if_neg isNumber, advance_of_readIntBody read'']
      split at success <;> cases success
      rfl
  rw [if_neg isDecimal] at success
  by_cases isFloat : code = Codes.F64
  · rw [if_pos isFloat] at success
    obtain ⟨⟨raw, next'⟩, read', success⟩ := bind_eq_ok.mp success
    cases success
    rw [if_pos isFloat, advance_of_take read']
  rw [if_neg isFloat] at success
  rw [if_neg isFloat, if_neg isDecimal]
  by_cases isUuid : code = Codes.UUID
  · rw [if_pos isUuid] at success
    obtain ⟨⟨raw, next'⟩, read', success⟩ := bind_eq_ok.mp success
    cases success
    rw [if_pos isUuid, advance_of_take read']
  rw [if_neg isUuid] at success
  rw [if_neg isUuid]
  by_cases isVector : code = Codes.VECTOR
  · rw [if_pos isVector] at success
    obtain ⟨⟨count, next'⟩, read', success⟩ := bind_eq_ok.mp success
    obtain ⟨⟨elements, next''⟩, read'', success⟩ := bind_eq_ok.mp success
    cases success
    rw [if_pos isVector, read']
    exact advance_of_readVector read''
  rw [if_neg isVector] at success
  rw [if_neg isVector]
  by_cases isArray : code = Codes.ARRAY
  · rw [if_pos isArray] at success
    rw [if_pos isArray]
    exact arrays next value after success
  rw [if_neg isArray] at success
  cases success

theorem skipArrayElements_of_readArrayElements
    {fuel : Nat} {elements : List Value}
    (success : readArrayElements mask fuel reader = .ok (elements, after)) :
    skipArrayElements mask fuel reader = .ok after := by
  induction fuel generalizing reader elements with
  | zero => cases success
  | succ fuel ih =>
      rw [readArrayElements] at success
      obtain ⟨⟨code, next⟩, read, success⟩ := bind_eq_ok.mp success
      dsimp only at success
      rw [skipArrayElements, read]
      simp only [bind, Except.bind]
      split at success
      case isTrue ends =>
        cases success
        rw [if_pos ends]
      case isFalse goesOn =>
        split at success
        case isTrue => cases success
        case isFalse notNested =>
          obtain ⟨⟨element, next'⟩, read', success⟩ := bind_eq_ok.mp success
          obtain ⟨⟨tail, last⟩, read'', success⟩ := bind_eq_ok.mp success
          cases success
          rw [if_neg goesOn, if_neg notNested, skipWith_of_readDynamicWith
            (fun _ _ _ bad => by cases bad) read']
          exact ih read''

theorem skip_of_readDynamic
    (success : reader.readDynamic direction = .ok (value, after)) :
    reader.skip direction = .ok after := by
  refine skipWith_of_readDynamicWith ?_ success
  intro reader value after success
  obtain ⟨⟨elements, next⟩, read, success⟩ := bind_eq_ok.mp success
  cases success
  exact skipArrayElements_of_readArrayElements read

theorem skip_skips
    (direction : Direction) (value : Value) (pos : Nat) (rest : Bytes)
    (flat : value.flat = true) :
    Skips (TupleReader.skip ⟨pos, encodeValue direction value ++ rest⟩ direction)
      rest := by
  obtain ⟨stop, read⟩ := readDynamic_reads direction value pos rest flat
  exact ⟨stop, skip_of_readDynamic read⟩

end TupleReader

/-! ## Tuples -/

/-- A list of values that match a list of types, nulls aside. -/
def Typed : List Value → List ValueType → Prop
  | [], [] => True
  | value :: values, type :: types =>
      (value.valueType = some type ∨ value = .null) ∧
        value.flat = true ∧ Typed values types
  | _, _ => False

variable {types : List ValueType} {values found : List Value}

/-- What a reader of types returns is the tuple it was given. -/
theorem readAll_spec
    {directions : List Direction} {pos : Nat} {rest : Bytes}
    {reader : TupleReader}
    (sameLength : types.length = values.length)
    (success : TupleReader.readAll types directions
        ⟨pos, encodeWith values directions ++ rest⟩ = .ok (found, reader)) :
    found.map Value.canonical = values.map (fun value => value.cut.canonical) ∧
      reader.remainder = rest := by
  induction values generalizing found types directions pos with
  | nil =>
      obtain rfl : types = [] := length_eq_zero_iff.mp sameLength
      cases success
      exact ⟨rfl, rfl⟩
  | cons value values ih =>
      cases types with
      | nil => cases sameLength
      | cons type types =>
          rw [TupleReader.readAll, encodeWith, append_assoc] at success
          obtain ⟨⟨head, next⟩, read, success⟩ := bind_eq_ok.mp success
          obtain ⟨⟨tail, last⟩, read', success⟩ := bind_eq_ok.mp success
          cases success
          obtain ⟨same, stopped⟩ := TupleReader.read_spec read
          obtain ⟨pos', remainder⟩ := next
          obtain rfl : remainder = _ := stopped
          obtain ⟨sames, stopped'⟩ := ih (by simpa using sameLength) read'
          exact ⟨by simp [same, sames], stopped'⟩

theorem readAll_reads
    (values : List Value) (types : List ValueType) (directions : List Direction)
    (pos : Nat) (rest : Bytes) (typed : Typed values types) :
    Reads (TupleReader.readAll types directions
        ⟨pos, encodeWith values directions ++ rest⟩)
      (values.map Value.decoded) rest := by
  induction values generalizing types directions pos with
  | nil =>
      cases types with
      | nil => exact ⟨pos, rfl⟩
      | cons _ _ => cases typed
  | cons value values ih =>
      cases types with
      | nil => cases typed
      | cons type types =>
          obtain ⟨headTyped, flat, typed⟩ := typed
          obtain ⟨stop, read⟩ := TupleReader.read_reads (directions.headD .asc) value
            type pos (encodeWith values directions.tail ++ rest) flat headTyped
          obtain ⟨stop', read'⟩ := ih types directions.tail stop typed
          refine ⟨stop', ?_⟩
          rw [TupleReader.readAll, encodeWith, append_assoc, read]
          simp only [bind, Except.bind, read', pure, Except.pure, map_cons]

theorem decode_spec
    (sameLength : types.length = values.length)
    (success : decode (encode values) types = .ok found) :
    found.map Value.canonical = values.map (fun value => value.cut.canonical) := by
  obtain ⟨⟨decoded, rest⟩, read, success⟩ := bind_eq_ok.mp success
  obtain ⟨⟨decoded', reader⟩, read', same⟩ := bind_eq_ok.mp read
  cases same
  have whole : TupleReader.new (encode values) = ⟨0, encodeWith values [] ++ []⟩ := by
    simp [TupleReader.new, encode]
  rw [whole] at read'
  dsimp only at success
  split at success
  case isTrue =>
    cases success
    exact (readAll_spec sameLength read').1
  case isFalse => cases success

theorem decode_encode
    {values : List Value} (typed : Typed values types) :
    decode (encode values) types = .ok (values.map Value.decoded) := by
  obtain ⟨stop, read⟩ := readAll_reads values types [] 0 [] typed
  have whole : TupleReader.new (encode values) = ⟨0, encodeWith values [] ++ []⟩ := by
    simp [TupleReader.new, encode]
  simp only [decode, decodePrefix, decodePrefixWith, whole, read, bind,
    Except.bind, pure, Except.pure, isEmpty_nil, if_true]

end SlateOrm
