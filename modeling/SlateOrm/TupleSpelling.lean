import SlateOrm.TupleReadBack

namespace SlateOrm

open List

/-!
# What the bytes of a tuple spell

A reader takes bytes that no writer has chosen.  What it accepts is a sequence
of elements, each spelled in full: a float by its bits, NaN payload included,
and an integer by its sign and its magnitude.  A writer spells only some of
them, since it knows one NaN and has no integer below the signed range.  Bytes
are written again as they were read when they spell none of the others.
-/

/-! ## Bytes and the numbers they stand for -/

theorem foldl_fromBeBytes
    (bytes : Bytes) (start : Nat) :
    bytes.foldl (fun number byte => number * 256 + byte.toNat) start =
      start * 256 ^ bytes.length + fromBeBytes bytes := by
  induction bytes generalizing start with
  | nil => simp [fromBeBytes]
  | cons byte rest ih =>
      rw [fromBeBytes, foldl_cons, foldl_cons, ih,
        ih (0 * 256 + byte.toNat), length_cons, pow_succ]
      ring

theorem fromBeBytes_cons
    (byte : UInt8) (rest : Bytes) :
    fromBeBytes (byte :: rest) = byte.toNat * 256 ^ rest.length + fromBeBytes rest := by
  rw [fromBeBytes, foldl_cons, foldl_fromBeBytes, zero_mul, zero_add]

theorem toBeBytes_mul_add
    (width high number : Nat) :
    toBeBytes width (high * 256 ^ width + number) = toBeBytes width number := by
  have step (known : Nat) : toBeBytes width (256 ^ width * known + number) =
        toBeBytes width number := by
    induction width generalizing known with
    | zero => rfl
    | succ width ih =>
        have split : 256 ^ (width + 1) * known + number =
            256 ^ width * (256 * known) + number := by
          ring
        rw [toBeBytes, toBeBytes, split, ih, Nat.mul_add_div (Nat.pow_pos (by decide))]
        congr 1
        apply UInt8.toNat_inj.mp
        rw [UInt8.toNat_ofNat', UInt8.toNat_ofNat']
        omega
  rw [Nat.mul_comm]
  exact step high

theorem toBeBytes_fromBeBytes
    (bytes : Bytes) :
    toBeBytes bytes.length (fromBeBytes bytes) = bytes := by
  induction bytes with
  | nil => rfl
  | cons byte rest ih =>
      have small := TupleReader.fromBeBytes_lt rest
      rw [length_cons, fromBeBytes_cons, toBeBytes, toBeBytes_mul_add, ih, Nat.mul_comm,
        Nat.mul_add_div (Nat.pow_pos (by decide)), Nat.div_eq_of_lt small]
      simp

variable {width : Nat}

theorem floatToOrdered_orderedToFloat
    (ordered : BitVec (width + 1)) :
    floatToOrdered (orderedToFloat ordered) = ordered := by
  have signOf := and_intMin_eq_zero_iff ordered
  have signOf' := and_intMin_eq_zero_iff (orderedToFloat ordered)
  have flipped : (orderedToFloat ordered).msb = !ordered.msb := by
    unfold orderedToFloat
    split
    · simp
    · simp [BitVec.msb_xor, BitVec.msb_intMin]
  unfold floatToOrdered
  cases sign : ordered.msb with
  | false =>
      rw [if_neg (by rw [signOf', flipped, sign]; decide), orderedToFloat,
        if_pos (signOf.mpr sign), BitVec.not_not]
  | true =>
      rw [if_pos (by rw [signOf', flipped, sign]; decide), orderedToFloat,
        if_neg (by rw [signOf, sign]; decide), BitVec.xor_assoc,
        BitVec.xor_self, BitVec.xor_zero]

theorem toBeBytes_orderedToFloat
    {count : Nat} {raw : Bytes}
    (counted : raw.length = count)
    (wide : 256 ^ count = 2 ^ (width + 1)) :
    toBeBytes count (floatToOrdered (orderedToFloat
      (BitVec.ofNat (width + 1) (fromBeBytes raw)))).toNat = raw := by
  have small := TupleReader.fromBeBytes_lt raw
  rw [counted, wide] at small
  rw [floatToOrdered_orderedToFloat, BitVec.toNat_ofNat,
    Nat.mod_eq_of_lt small, ← counted, toBeBytes_fromBeBytes]

theorem toBeBytes_injective
    {first second : Nat}
    (firstFits : first < 256 ^ width)
    (secondFits : second < 256 ^ width)
    (same : toBeBytes width first = toBeBytes width second) :
    first = second := by
  rw [← fromBeBytes_toBeBytes firstFits, same, fromBeBytes_toBeBytes secondFits]

theorem extend_injective
    {mask : UInt8} {first second : Bytes}
    (same : extend mask first = extend mask second) :
    first = second := by
  rw [← extend_extend mask first, same, extend_extend]

variable {magnitude : Nat}

namespace TupleReader

/-! ## What a reader has read -/

variable {reader after : TupleReader} {mask : UInt8} {raw : Bytes}
  {negative : Bool}

theorem remainder_of_byte
    {mask code : UInt8}
    (success : reader.byte mask = .ok (code, after)) :
    reader.remainder = extend mask [code] ++ after.remainder := by
  unfold TupleReader.byte at success
  split at success
  · cases success
  · next head rest isFront =>
      cases success
      rw [isFront]
      simp

theorem remainder_of_take
    {count : Nat}
    (success : reader.take count mask = .ok (raw, after)) :
    reader.remainder = extend mask raw ++ after.remainder ∧ raw.length = count := by
  unfold TupleReader.take at success
  split at success
  · next enough =>
      cases success
      refine ⟨?_, by simpa using enough⟩
      have masked := extend_extend mask (reader.remainder.take count)
      unfold extend at masked ⊢
      rw [masked]
      exact (take_append_drop count reader.remainder).symm
  · cases success

theorem remainder_of_readEscapedFrom
    {pos : Nat} {bytes out : Bytes} {after : TupleReader}
    (success : readEscapedFrom mask pos bytes = .ok (out, after)) :
    bytes = pushEscaped mask out ++ after.remainder := by
  fun_induction readEscapedFrom mask pos bytes generalizing out after with
  | case1 pos => cases success
  | case2 pos first rest nonzero ih =>
      obtain ⟨⟨others, last⟩, read, success⟩ := bind_eq_ok.mp success
      cases success
      rw [ih read]
      simp [pushEscaped, escape, nonzero]
  | case3 pos first zero => cases success
  | case4 pos first zero second rest ends =>
      cases success
      rw [pushEscaped, escape, nil_append, extend_cons, extend_cons, ← not_not.mp zero]
      nth_rewrite 2 [not_not.mp zero]
      rw [← ends]
      simp
  | case5 pos first zero second rest goesOn escaped ih =>
      obtain ⟨⟨others, last⟩, read, success⟩ := bind_eq_ok.mp success
      cases success
      rw [ih read, pushEscaped, pushEscaped, escape,
        if_pos rfl, ← escaped, ← not_not.mp zero]
      simp
  | case6 pos first zero second rest goesOn bad => cases success

theorem remainder_of_readMagnitude
    {len start : Nat}
    (success : readMagnitude mask negative len start reader = .ok (magnitude, after)) :
    ∃ digits : Bytes, digits.length = len ∧
      magnitude = start * 256 ^ len + fromBeBytes digits ∧
      reader.remainder = extend mask (digits.map
          (fun byte => if negative then ~~~byte else byte)) ++
          after.remainder := by
  induction len generalizing start reader with
  | zero =>
      cases success
      exact ⟨[], rfl, by simp [fromBeBytes], rfl⟩
  | succ len ih =>
      rw [readMagnitude] at success
      obtain ⟨⟨byte, next⟩, read, success⟩ := bind_eq_ok.mp success
      obtain ⟨digits, counted, sum, front⟩ := ih success
      have digit : (if negative then ~~~(if negative then ~~~byte else byte)
          else (if negative then ~~~byte else byte)) = byte := by
        cases negative <;> simp
      refine ⟨(if negative then ~~~byte else byte) :: digits,
        by rw [length_cons, counted], ?_, ?_⟩
      · rw [sum, fromBeBytes_cons, counted, pow_succ]
        ring
      · rw [remainder_of_byte read, front, map_cons, extend_cons, digit, extend_cons]
        rfl

theorem toNat_of_isInt
    {code : UInt8}
    (isInt : Codes.isInt code = true)
    (notZero : code ≠ Codes.INT_ZERO) :
    (code > Codes.INT_ZERO ∧ code.toNat = 0x15 + intLen code ∧
        1 ≤ intLen code ∧ intLen code ≤ 8) ∨
      (¬ code > Codes.INT_ZERO ∧ code.toNat = 0x15 - intLen code ∧
        1 ≤ intLen code ∧ intLen code ≤ 8) := by
  have zeroCode : Codes.INT_ZERO.toNat = 0x15 := rfl
  have lowCode : Codes.INT_MIN.toNat = 0x0D := rfl
  have highCode : Codes.INT_MAX.toNat = 0x1D := rfl
  have different : code.toNat ≠ 0x15 := by
    intro same
    exact notZero (UInt8.toNat_inj.mp (same.trans zeroCode.symm))
  simp only [Codes.isInt, UInt8.le_iff_toNat_le, Bool.and_eq_true,
    decide_eq_true_eq] at isInt
  by_cases above : code > Codes.INT_ZERO
  · refine .inl ⟨above, ?_⟩
    have above' := above
    rw [gt_iff_lt, UInt8.lt_iff_toNat_lt] at above'
    rw [intLen, if_pos above, UInt8.toNat_sub_of_le _ _ (UInt8.le_of_lt above)]
    omega
  · refine .inr ⟨above, ?_⟩
    have below := above
    rw [gt_iff_lt, UInt8.lt_iff_toNat_lt] at below
    rw [intLen, if_neg above, UInt8.toNat_sub_of_le _ _
      (by rw [UInt8.le_iff_toNat_le]; omega)]
    omega

/-- A sign and a magnitude that are read are the ones that are written. -/
theorem remainder_of_readIntBody
    {code mask : UInt8} {start : Nat}
    (isInt : Codes.isInt code = true)
    (success : reader.readIntBody code mask start =
      .ok ((negative, magnitude), after)) :
    extend mask [code] ++ reader.remainder =
        pushInt mask negative magnitude ++ after.remainder ∧
      magnitude < 2 ^ 64 ∧ (negative = true → magnitude ≠ 0) := by
  rw [readIntBody] at success
  split at success
  · next isZero =>
      cases success
      refine ⟨?_, by decide, by simp⟩
      rw [isZero, pushInt, if_pos rfl]
  · next notZero =>
      obtain ⟨⟨magnitude', next⟩, read, success⟩ := bind_eq_ok.mp success
      dsimp only at success
      split at success
      · cases success
      · next minimal =>
          cases success
          rw [ne_eq, not_not] at minimal
          obtain ⟨digits, counted, sum, front⟩ := remainder_of_readMagnitude read
          rw [zero_mul, zero_add] at sum
          have tag := toNat_of_isInt isInt notZero
          have small : magnitude < 2 ^ 64 := by
            calc magnitude = fromBeBytes digits := sum
              _ < 256 ^ digits.length := fromBeBytes_lt digits
              _ ≤ 256 ^ 8 := Nat.pow_le_pow_right (by decide) (by omega)
              _ = 2 ^ 64 := by decide
          have nonzero : magnitude ≠ 0 := by
            rintro rfl
            have none : magnitudeLen 0 = 0 := by decide
            omega
          have isCode : intCode (!decide (code > Codes.INT_ZERO)) magnitude =
              code := by
            apply UInt8.toNat_inj.mp
            rcases tag with ⟨above, number, -⟩ | ⟨below, number, -⟩
            · rw [decide_eq_true above, Bool.not_true,
                intCode_false_toNat nonzero small, minimal, number]
            · rw [decide_eq_false below, Bool.not_false,
                intCode_true_toNat nonzero small, minimal, number]
          refine ⟨?_, small, fun _ => nonzero⟩
          rw [pushInt_mask, pushInt_nonzero _ nonzero small, isCode, minimal, sum, ←
            counted, toBeBytes_fromBeBytes, front, extend_cons, extend_cons]
          rfl

theorem remainder_of_readVector
    {count : Nat} {elements : List F32}
    (success : readVector mask count reader = .ok (elements, after)) :
    reader.remainder = extend mask (elements.flatMap
        (fun element => toBeBytes 4 (floatToOrdered element).toNat)) ++
        after.remainder := by
  induction count generalizing reader elements with
  | zero =>
      cases success
      rfl
  | succ count ih =>
      rw [readVector] at success
      obtain ⟨⟨raw, next⟩, read, success⟩ := bind_eq_ok.mp success
      obtain ⟨⟨others, last⟩, readOthers, success⟩ := bind_eq_ok.mp success
      cases success
      obtain ⟨front, counted⟩ := remainder_of_take read
      rw [front, ih readOthers, flatMap_cons,
        toBeBytes_orderedToFloat counted (by decide), extend_append,
        append_assoc]

theorem utf8_of_fromUTF8
    {text : String}
    (success : String.fromUTF8? ⟨⟨raw⟩⟩ = some text) :
    utf8 text = raw := by
  rw [String.fromUTF8?] at success
  split at success
  · cases success
    rfl
  · cases success

theorem bytes_uuidFromBytes
    (sixteen : raw.length = 16) :
    (uuidFromBytes raw).bytes = raw := by
  have taken : (raw ++ replicate 16 0).take 16 = raw := by
    rw [← sixteen, take_left]
  exact taken

theorem pushInt_widened
    (mask : UInt8)
    (signed : negative = true → magnitude ≠ 0) :
    pushInt mask (widened negative magnitude < 0) (widened negative magnitude).natAbs =
      pushInt mask negative magnitude := by
  cases negative with
  | false =>
      have above : ¬ (magnitude : Int) < 0 := by omega
      simp only [widened, Bool.false_eq_true, if_false, above, decide_false,
        Int.natAbs_natCast]
  | true =>
      have nonzero := signed rfl
      have below : -(magnitude : Int) < 0 := by omega
      simp only [widened, if_true, below, decide_true, Int.natAbs_neg,
        Int.natAbs_natCast]

theorem encodeValue_integer
    (direction : Direction) {value : Value} {number : Int}
    (isNumber : value.asI128 = some number) :
    encodeValue direction value =
      pushInt direction.mask (number < 0) number.natAbs := by
  rw [encodeValue_mask, (encodeValue_of_asI128 isNumber).1, ← pushInt_mask]

end TupleReader

/-! ## Spellings -/

/-- Whether a float is no NaN, or the one that is written. -/
def F64.plain (bits : F64) : Bool := !isNan bits || bits == nan

@[inherit_doc F64.plain]
def F32.plain (bits : F32) : Bool := !isNan bits || bits == nan

namespace Value

/-- The bytes of a value with its floats bit by bit. -/
def spelled (direction : Direction) : Value → Bytes
  | .f64 bits =>
      extend direction.mask [Codes.F64] ++
        extend direction.mask (toBeBytes 8 (floatToOrdered bits).toNat)
  | .vector elements =>
      extend direction.mask [Codes.VECTOR] ++
        extend direction.mask (toBeBytes 4 elements.length) ++
        extend direction.mask (elements.flatMap
            (fun element => toBeBytes 4 (floatToOrdered element).toNat))
  | value => encodeValue direction value

/-- Whether a value is made of floats. -/
def hasFloats : Value → Bool
  | .f64 _ => true
  | .vector _ => true
  | _ => false

theorem spelled_of_hasFloats
    (direction : Direction) {value : Value}
    (noFloats : value.hasFloats = false) :
    value.spelled direction = encodeValue direction value := by
  cases value <;> first | rfl | cases noFloats

/-- Whether a value has no NaN but the one that is written. -/
def plain : Value → Bool
  | .f64 bits => bits.plain
  | .vector elements => elements.all F32.plain
  | _ => true

end Value

/-- One element of an array, or a whole element that is no array. -/
inductive Item where
  | value (held : Value) (notArray : held.isArray = false) (fits : held.fits = true)
  -- An integer below the signed range, for which there is no value.
  | below (magnitude : Nat) (low : 2 ^ 63 < magnitude) (high : magnitude < 2 ^ 64)

namespace Item

/-- The bytes that spell an item. -/
def spelled (direction : Direction) : Item → Bytes
  | value held _ _ => held.spelled direction
  | below magnitude _ _ => pushInt direction.mask true magnitude

/-- What a dynamic reader makes of an item. -/
def meaning : Item → Value
  | value held _ _ => held
  | below magnitude _ _ => .u64 (UInt64.ofNat magnitude)

/-- Whether an item is one that no writer spells. -/
def irregular : Item → Bool
  | value held _ _ => !held.plain
  | below _ _ _ => true

end Item

/-- One element of a tuple. -/
inductive Element where
  | single (item : Item)
  | array (items : List Item)

namespace Element

/-- The bytes that spell an element. -/
def spelled (direction : Direction) : Element → Bytes
  | single item => item.spelled direction
  | array items =>
      extend direction.mask [Codes.ARRAY] ++ items.flatMap (Item.spelled direction) ++
        extend direction.mask [Codes.NUL]

/-- What a reader makes of an element. -/
def meaning : Element → Value
  | single item => item.meaning
  | array items => .array (items.map Item.meaning)

/-- Whether an element is one that no writer spells. -/
def irregular : Element → Bool
  | single item => item.irregular
  | array items => items.any Item.irregular

end Element

/-- The bytes that spell a tuple, with a direction for each element. -/
def spelledWith : List Element → List Direction → Bytes
  | [], _ => []
  | element :: rest, directions =>
      element.spelled (directions.headD .asc) ++ spelledWith rest directions.tail

/--
Bytes that begin with a number of elements of which one is not as a writer
spells it: a NaN with a payload, or an integer below the signed range.
-/
def Misspelled (bytes : Bytes) (count : Nat) (directions : List Direction) : Prop :=
  ∃ elements rest, elements.length = count ∧
    bytes = spelledWith elements directions ++ rest ∧
    ∃ element ∈ elements, element.irregular = true

namespace TupleReader

/-! ## What is read is spelled -/

variable {array : TupleReader → Except TupleError (Value × TupleReader)}
  {reader after : TupleReader} {direction : Direction} {value : Value}
  {code : UInt8}

section

variable
  {start : Nat}
  (success : readBodyWith array reader code direction.mask start = .ok (value, after))

include success

/-- A body that is no array's is spelled by the bytes it was read from. -/
theorem spelled_of_readBodyWith :
    (code = Codes.ARRAY ∧ array reader = .ok (value, after)) ∨
      extend direction.mask [code] ++ reader.remainder =
        value.spelled direction ++ after.remainder := by
  unfold readBodyWith at success
  split at success
  · next isFalse =>
      cases success
      right
      rw [isFalse, Value.spelled_of_hasFloats _ rfl, encodeValue]
  split at success
  · next isTrue =>
      cases success
      right
      rw [isTrue, Value.spelled_of_hasFloats _ rfl, encodeValue]
  split at success
  · next isBytes =>
      obtain ⟨⟨raw, next⟩, read, success⟩ := bind_eq_ok.mp success
      cases success
      right
      rw [isBytes, Value.spelled_of_hasFloats _ rfl, encodeValue, append_assoc,
        remainder_of_readEscapedFrom read]
  split at success
  · next isStr =>
      obtain ⟨⟨raw, next⟩, read, success⟩ := bind_eq_ok.mp success
      dsimp only at success
      split at success
      · next text isText =>
          cases success
          right
          rw [isStr, Value.spelled_of_hasFloats _ rfl, encodeValue, append_assoc,
            utf8_of_fromUTF8 isText, remainder_of_readEscapedFrom read]
      · cases success
  split at success
  · next isDecimal =>
      obtain ⟨⟨inner, next⟩, readInner, success⟩ := bind_eq_ok.mp success
      dsimp only at success
      split at success
      · cases success
      · next isInt =>
          obtain ⟨⟨⟨negative, magnitude⟩, next'⟩, read, success⟩ :=
            bind_eq_ok.mp success
          dsimp only at success
          split at success
          · next units narrowed =>
              cases success
              right
              rw [Bool.not_eq_true, Bool.not_eq_false'] at isInt
              obtain ⟨front, -, signed⟩ := remainder_of_readIntBody isInt read
              have number := Option.some.inj (asI128_of_tryI64 narrowed)
              rw [isDecimal, Value.spelled_of_hasFloats _ rfl, encodeValue,
                append_assoc, remainder_of_byte readInner, front, number,
                pushInt_widened _ signed]
          · cases success
  split at success
  · next isFloat =>
      obtain ⟨⟨raw, next⟩, read, success⟩ := bind_eq_ok.mp success
      cases success
      obtain ⟨front, counted⟩ := remainder_of_take read
      right
      rw [isFloat, Value.spelled, front, append_assoc,
        toBeBytes_orderedToFloat counted (by decide)]
  split at success
  · next isUuid =>
      obtain ⟨⟨raw, next⟩, read, success⟩ := bind_eq_ok.mp success
      cases success
      obtain ⟨front, counted⟩ := remainder_of_take read
      right
      rw [isUuid, Value.spelled_of_hasFloats _ rfl, encodeValue, front,
        append_assoc, bytes_uuidFromBytes counted]
  split at success
  · next isVector =>
      obtain ⟨⟨count, next⟩, readCount, success⟩ := bind_eq_ok.mp success
      obtain ⟨⟨elements, next'⟩, read, success⟩ := bind_eq_ok.mp success
      cases success
      obtain ⟨⟨raw, next''⟩, taken, success⟩ := bind_eq_ok.mp readCount
      cases success
      obtain ⟨front, counted⟩ := remainder_of_take taken
      have written : toBeBytes 4 elements.length = raw := by
        rw [length_of_readVector read, ← counted, toBeBytes_fromBeBytes]
      right
      rw [isVector, Value.spelled, front, remainder_of_readVector read, written,
        append_assoc, append_assoc]
  split at success
  · next isArray => exact .inl ⟨isArray, success⟩
  · cases success

theorem item_of_readBodyWith :
    (code = Codes.ARRAY ∧ array reader = .ok (value, after)) ∨ ∃ item : Item,
        extend direction.mask [code] ++ reader.remainder =
          item.spelled direction ++ after.remainder ∧
        item.meaning = value := by
  rcases scalar_of_readBodyWith success with isArray | scalar
  · exact .inl isArray
  rcases spelled_of_readBodyWith success with isArray | front
  · exact .inl isArray
  · exact .inr ⟨.value value scalar.notArray scalar.fits, front, rfl⟩

end

theorem item_of_null
    (read : reader.byte direction.mask = .ok (code, after))
    (isNull : code = Codes.NULL) :
    ∃ item : Item, reader.remainder = item.spelled direction ++ after.remainder ∧
      item.meaning = .null := by
  refine ⟨.value .null rfl rfl, ?_, rfl⟩
  have written : Value.null.spelled direction = extend direction.mask [Codes.NULL] := by
    rw [Value.spelled_of_hasFloats _ rfl, encodeValue]
  rw [remainder_of_byte read, isNull, ← written]
  rfl

theorem item_of_integer
    (direction : Direction) {negative : Bool}
    (isNumber : value.asI128 = some (widened negative magnitude))
    (signed : negative = true → magnitude ≠ 0) :
    ∃ item : Item, pushInt direction.mask negative magnitude = item.spelled direction ∧
      item.meaning = value := by
  have isInteger : value.isArray = false ∧ value.fits = true ∧
      value.hasFloats = false := by
    cases value <;> first | exact ⟨rfl, rfl, rfl⟩ | cases isNumber
  obtain ⟨notArray, fits, noFloats⟩ := isInteger
  refine ⟨.value value notArray fits, ?_, rfl⟩
  rw [Item.spelled, Value.spelled_of_hasFloats _ noFloats,
    encodeValue_integer direction isNumber, pushInt_widened _ signed]

theorem item_of_dynamicInteger
    (direction : Direction) {negative : Bool}
    (small : magnitude < 2 ^ 64)
    (signed : negative = true → magnitude ≠ 0)
    (wide : tryI64 (widened negative magnitude) = none) :
    ∃ item : Item, pushInt direction.mask negative magnitude = item.spelled direction ∧
      item.meaning = .u64 (UInt64.ofNat magnitude) := by
  have outside : ¬ (-2 ^ 63 ≤ widened negative magnitude ∧
      widened negative magnitude < 2 ^ 63) := by
    intro inside
    rw [tryI64, if_pos inside] at wide
    cases wide
  cases negative with
  | false =>
      refine item_of_integer direction ?_ signed
      rw [Value.asI128, UInt64.toNat_ofNat', Nat.mod_eq_of_lt small]
      rfl
  | true =>
      rw [widened, if_pos rfl] at outside
      exact ⟨.below magnitude (by omega) small, rfl, rfl⟩

/-- What a dynamic reader returns was spelled, unless it is an array. -/
theorem item_of_readDynamicWith
    (success : readDynamicWith array reader direction.mask = .ok (value, after)) :
    (∃ next, reader.byte direction.mask = .ok (Codes.ARRAY, next) ∧
        array next = .ok (value, after)) ∨
      ∃ item : Item, reader.remainder = item.spelled direction ++ after.remainder ∧
        item.meaning = value := by
  obtain ⟨⟨code, next⟩, read, success⟩ := bind_eq_ok.mp success
  dsimp only at success
  split at success
  · next isNull =>
      cases success
      exact .inr (item_of_null read isNull)
  split at success
  · next isInt =>
      obtain ⟨⟨⟨negative, magnitude⟩, next'⟩, readInt, success⟩ := bind_eq_ok.mp success
      obtain ⟨front, small, signed⟩ := remainder_of_readIntBody isInt readInt
      rw [remainder_of_byte read, front]
      right
      dsimp only at success
      split at success
      · next number narrowed =>
          cases success
          obtain ⟨item, written, same⟩ := item_of_integer
            direction (asI128_of_tryI64 narrowed) signed
          exact ⟨item, by rw [written], same⟩
      · next wide =>
          cases success
          obtain ⟨item, written, same⟩ := item_of_dynamicInteger
            direction small signed wide
          exact ⟨item, by rw [written], same⟩
  · rcases item_of_readBodyWith success with ⟨rfl, readArray⟩ | found
    · exact .inl ⟨next, read, readArray⟩
    · rw [remainder_of_byte read]
      exact .inr found

/-- The elements of an array that are read were spelled. -/
theorem items_of_readArrayElements
    {fuel : Nat} {elements : List Value}
    (success : readArrayElements direction.mask fuel reader = .ok (elements, after)) :
    ∃ items : List Item, reader.remainder = items.flatMap (Item.spelled direction) ++
          extend direction.mask [Codes.NUL] ++ after.remainder ∧
      items.map Item.meaning = elements := by
  induction fuel generalizing reader elements with
  | zero => cases success
  | succ fuel ih =>
      rw [readArrayElements] at success
      obtain ⟨⟨code, next⟩, read, success⟩ := bind_eq_ok.mp success
      dsimp only at success
      split at success
      · next isEnd =>
          cases success
          refine ⟨[], ?_, rfl⟩
          rw [remainder_of_byte read, isEnd]
          rfl
      split at success
      · cases success
      obtain ⟨⟨head, next'⟩, readHead, success⟩ := bind_eq_ok.mp success
      obtain ⟨⟨others, last⟩, readOthers, success⟩ := bind_eq_ok.mp success
      cases success
      rcases item_of_readDynamicWith readHead with ⟨_, _, nested⟩ | found
      · cases nested
      · obtain ⟨item, front, same⟩ := found
        obtain ⟨items, frontOthers, sameOthers⟩ := ih readOthers
        refine ⟨item :: items, ?_, by rw [map_cons, same, sameOthers]⟩
        rw [front, frontOthers, flatMap_cons]
        simp only [append_assoc]

theorem element_of_readArray
    {reader next after : TupleReader}
    (read : reader.byte direction.mask = .ok (Codes.ARRAY, next))
    (success : next.readArray direction.mask = .ok (value, after)) :
    ∃ element : Element,
      reader.remainder = element.spelled direction ++ after.remainder ∧
      element.meaning = value := by
  obtain ⟨⟨elements, next'⟩, readElements, success⟩ := bind_eq_ok.mp success
  cases success
  obtain ⟨items, front, same⟩ := items_of_readArrayElements readElements
  refine ⟨.array items, ?_, by rw [Element.meaning, same]⟩
  rw [remainder_of_byte read, front, Element.spelled]
  simp only [append_assoc]

theorem element_of_readDynamic
    (success : reader.readDynamic direction = .ok (value, after)) :
    ∃ element : Element,
      reader.remainder = element.spelled direction ++ after.remainder ∧
      element.meaning = value := by
  rcases item_of_readDynamicWith success with ⟨next, read, readArray⟩ | found
  · exact element_of_readArray read readArray
  · obtain ⟨item, front, same⟩ := found
    exact ⟨.single item, front, same⟩

/-- What a typed reader returns was spelled. -/
theorem element_of_read
    {type : ValueType}
    (success : reader.read type direction = .ok (value, after)) :
    ∃ element : Element,
      reader.remainder = element.spelled direction ++ after.remainder ∧
      element.meaning = value := by
  obtain ⟨⟨code, next⟩, read, success⟩ := bind_eq_ok.mp success
  dsimp only at success
  split at success
  · next isNull =>
      cases success
      obtain ⟨item, front, same⟩ := item_of_null read isNull
      exact ⟨.single item, front, same⟩
  split at success
  · next isInt =>
      obtain ⟨⟨⟨negative, magnitude⟩, next'⟩, readInt, success⟩ := bind_eq_ok.mp success
      obtain ⟨front, small, signed⟩ := remainder_of_readIntBody isInt readInt
      have narrowed : value.asI128 = some (widened negative magnitude) ∧
          next' = after := by
        dsimp only at success
        cases type with
        | i64 =>
            dsimp only at success
            split at success
            · next number narrowed =>
                cases success
                exact ⟨asI128_of_tryI64 narrowed, rfl⟩
            · cases success
        | u64 =>
            dsimp only at success
            split at success
            · next number narrowed =>
                cases success
                exact ⟨asI128_of_tryU64 narrowed, rfl⟩
            · cases success
        | _ => cases success
      obtain ⟨item, written, same⟩ := item_of_integer direction narrowed.1 signed
      refine ⟨.single item, ?_, same⟩
      rw [remainder_of_byte read, front, written, narrowed.2]
      rfl
  split at success
  · cases success
  split at success
  · cases success
  rcases item_of_readBodyWith success with ⟨isArray, readArray⟩ | found
  · rw [isArray] at read
    exact element_of_readArray read readArray
  · obtain ⟨item, front, same⟩ := found
    refine ⟨.single item, ?_, same⟩
    rw [remainder_of_byte read]
    exact front

end TupleReader

/-! ## What a writer spells -/

theorem F64.floatToOrdered_of_plain
    {bits : F64}
    (isPlain : bits.plain = true) :
    floatToOrdered bits = f64ToOrdered bits := by
  rw [f64ToOrdered]
  split
  · next isNan =>
      rw [F64.plain, isNan, Bool.not_true, Bool.false_or, beq_iff_eq] at isPlain
      rw [isPlain]
  · rfl

theorem F32.floatToOrdered_of_plain
    {bits : F32}
    (isPlain : bits.plain = true) :
    floatToOrdered bits = f32ToOrdered bits := by
  rw [f32ToOrdered]
  split
  · next isNan =>
      rw [F32.plain, isNan, Bool.not_true, Bool.false_or, beq_iff_eq] at isPlain
      rw [isPlain]
  · rfl

theorem floatToOrdered_injective
    {first second : BitVec (width + 1)}
    (same : floatToOrdered first = floatToOrdered second) :
    first = second := by
  rw [← orderedToFloat_floatToOrdered first, same, orderedToFloat_floatToOrdered]

/-- A float that is spelled as one is written is plain. -/
theorem F64.plain_of_written
    {bits written : F64}
    (same : f64ToOrdered written = floatToOrdered bits) :
    bits.plain = true := by
  rw [f64ToOrdered] at same
  rw [← floatToOrdered_injective same, F64.plain]
  split
  · simp
  · next notNan =>
      rw [Bool.not_eq_true] at notNan
      rw [notNan]
      rfl

@[inherit_doc F64.plain_of_written]
theorem F32.plain_of_written
    {bits written : F32}
    (same : f32ToOrdered written = floatToOrdered bits) :
    bits.plain = true := by
  rw [f32ToOrdered] at same
  rw [← floatToOrdered_injective same, F32.plain]
  split
  · simp
  · next notNan =>
      rw [Bool.not_eq_true] at notNan
      rw [notNan]
      rfl

theorem Value.spelled_of_plain
    (direction : Direction) {value : Value}
    (fits : value.fits = true)
    (isPlain : value.plain = true) :
    value.spelled direction = encodeValue direction value := by
  cases value with
  | f64 bits => rw [Value.spelled, encodeValue, F64.floatToOrdered_of_plain isPlain]
  | vector elements =>
      rw [Value.fits, decide_eq_true_eq] at fits
      rw [Value.plain, all_eq_true] at isPlain
      rw [Value.spelled, encodeValue, Nat.min_eq_left fits, take_length]
      congr 2
      refine flatMap_congr (fun element member => ?_)
      rw [F32.floatToOrdered_of_plain (isPlain element member)]
  | _ => rfl

theorem Item.spelled_of_regular
    (direction : Direction) {item : Item}
    (regular : item.irregular = false) :
    item.spelled direction = encodeValue direction item.meaning := by
  cases item with
  | value held notArray fits =>
      rw [Item.irregular, Bool.not_eq_false'] at regular
      exact Value.spelled_of_plain direction fits regular
  | below magnitude low high => cases regular

theorem flatMap_spelled_of_regular
    (direction : Direction) {items : List Item}
    (regular : items.any Item.irregular = false) :
    items.flatMap (Item.spelled direction) =
      encodeElements direction (items.map Item.meaning) := by
  induction items with
  | nil => rfl
  | cons item items ih =>
      rw [any_cons, Bool.or_eq_false_iff] at regular
      rw [flatMap_cons, map_cons, encodeElements, Item.spelled_of_regular
        direction regular.1, ih regular.2]

theorem Element.spelled_of_regular
    (direction : Direction) {element : Element}
    (regular : element.irregular = false) :
    element.spelled direction = encodeValue direction element.meaning := by
  cases element with
  | single item => exact Item.spelled_of_regular direction regular
  | array items =>
      rw [Element.spelled, Element.meaning, encodeValue,
        flatMap_spelled_of_regular direction regular]

variable {direction : Direction} {rest rest' : Bytes} {written : Value}

theorem valueType_of_head
    {value : Value} {code : UInt8} {rest payload : Bytes}
    (notInt : Codes.isInt code = false)
    (same : encodeValue direction value ++ rest =
      extend direction.mask [code] ++ payload) :
    value.valueType = TupleReader.codeName code := by
  cases widened : value.asI128 with
  | none =>
      obtain ⟨head, others, written, -, named, -⟩ :=
        TupleReader.encodeValue_code direction value widened
      rw [written, append_assoc] at same
      have heads := extend_injective
        (append_inj_left same (by rw [length_extend, length_extend]; rfl))
      rw [← named, (cons.inj heads).1]
  | some number =>
      obtain ⟨head, digits, written, isInt, -⟩ := TupleReader.readIntBody_reads
        0 0 direction.mask number [] (encodeValue_of_asI128 widened).2
      rw [TupleReader.encodeValue_integer direction widened, written,
        append_assoc] at same
      have heads := extend_injective
        (append_inj_left same (by rw [length_extend, length_extend]; rfl))
      rw [(cons.inj heads).1, notInt] at isInt
      cases isInt

theorem all_plain_of_written
    {elements written : List F32}
    (sameLength : written.length = elements.length)
    (same : written.flatMap (fun element => toBeBytes 4 (f32ToOrdered element).toNat) =
        elements.flatMap (fun element => toBeBytes 4 (floatToOrdered element).toNat)) :
    elements.all F32.plain = true := by
  induction elements generalizing written with
  | nil => rfl
  | cons element elements ih =>
      cases written with
      | nil => cases sameLength
      | cons head others =>
          rw [flatMap_cons, flatMap_cons] at same
          obtain ⟨sameHead, sameOthers⟩ := append_inj same
            (by rw [length_toBeBytes, length_toBeBytes])
          have bits := BitVec.eq_of_toNat_eq (toBeBytes_injective
            (f32ToOrdered head).isLt (floatToOrdered element).isLt sameHead)
          rw [all_cons, F32.plain_of_written bits,
            ih (Nat.succ.inj sameLength) sameOthers]
          rfl

/-- A value that is spelled as another one is written is plain. -/
theorem Value.plain_of_written
    {value written : Value}
    (fits : value.fits = true)
    (same : encodeValue direction written ++ rest = value.spelled direction ++ rest') :
    value.plain = true := by
  cases value with
  | f64 bits =>
      rw [Value.spelled, append_assoc] at same
      have named := valueType_of_head (by decide) same
      cases written with
      | f64 other =>
          rw [encodeValue, append_assoc] at same
          have payload := append_cancel_left same
          have digits := extend_injective (append_inj_left payload
            (by simp only [length_extend, length_toBeBytes]))
          exact F64.plain_of_written (BitVec.eq_of_toNat_eq
            (toBeBytes_injective (f64ToOrdered other).isLt
              (floatToOrdered bits).isLt digits))
      | _ => cases named
  | vector elements =>
      rw [Value.spelled, append_assoc, append_assoc] at same
      have named := valueType_of_head (by decide) same
      cases written with
      | vector others =>
          rw [encodeValue, append_assoc, append_assoc] at same
          have afterCode := append_cancel_left same
          obtain ⟨counts, afterCount⟩ := append_inj afterCode
            (by simp only [length_extend, length_toBeBytes])
          rw [Value.fits, decide_eq_true_eq] at fits
          have limit : u32Max < 256 ^ 4 := by decide
          have count : min others.length u32Max = elements.length :=
            toBeBytes_injective (by omega) (by omega) (extend_injective counts)
          have taken : (others.take (min others.length u32Max)).length =
              elements.length := by
            rw [length_take]
            omega
          have floats := extend_injective (append_inj_left afterCount (by
            simp only [length_extend, length_flatMap, length_toBeBytes,
              map_const', taken]))
          exact all_plain_of_written taken floats
      | _ => cases named
  | _ => rfl

/-- An integer below the signed range is not written. -/
theorem not_written_below
    (low : 2 ^ 63 < magnitude)
    (high : magnitude < 2 ^ 64) :
    encodeValue direction written ++ rest ≠
      pushInt direction.mask true magnitude ++ rest' := by
  intro same
  have negative : (-(magnitude : Int)) < 0 := by omega
  have absolute : (-(magnitude : Int)).natAbs = magnitude := by omega
  obtain ⟨code, digits, spelled, isInt, -, stop, read⟩ :=
    TupleReader.readIntBody_reads 0 0 direction.mask (-(magnitude : Int)) rest'
      (by rw [absolute]; exact high)
  rw [decide_eq_true negative, absolute] at spelled read
  cases widened : written.asI128 with
  | none =>
      obtain ⟨head, others, isWritten, notInt, -⟩ :=
        TupleReader.encodeValue_code direction written widened
      rw [isWritten, spelled, append_assoc, append_assoc] at same
      have heads := extend_injective
        (append_inj_left same (by rw [length_extend, length_extend]; rfl))
      rw [(cons.inj heads).1, isInt] at notInt
      cases notInt
  | some number =>
      obtain ⟨head, others, isWritten, -, -, stop', read'⟩ :=
        TupleReader.readIntBody_reads 0 0 direction.mask number rest
          (encodeValue_of_asI128 widened).2
      rw [TupleReader.encodeValue_integer direction widened, isWritten, spelled,
        append_assoc, append_assoc] at same
      obtain ⟨heads, tails⟩ := append_inj same
        (by rw [length_extend, length_extend]; rfl)
      rw [(cons.inj (extend_injective heads)).1, tails, read] at read'
      simp only [Except.ok.injEq, Prod.mk.injEq] at read'
      have size := read'.1.2
      have sign := of_decide_eq_true read'.1.1.symm
      have bound : -2 ^ 63 ≤ number := by
        cases written with
        | i64 value =>
            cases widened
            exact value.le_toInt
        | u64 value =>
            cases widened
            omega
        | _ => cases widened
      omega

theorem Item.regular_of_written
    {item : Item}
    (same : encodeValue direction written ++ rest = item.spelled direction ++ rest') :
    item.irregular = false := by
  cases item with
  | value held notArray fits =>
      rw [Item.irregular, Value.plain_of_written fits same]
      rfl
  | below magnitude low high => exact absurd same (not_written_below low high)

theorem Item.spelled_first
    (direction : Direction) (item : Item) :
    ∃ code payload, item.spelled direction = extend direction.mask [code] ++ payload ∧
      code ≠ Codes.NUL := by
  cases item with
  | value held notArray fits =>
      cases held with
      | f64 bits => exact ⟨Codes.F64, _, rfl, by decide⟩
      | vector elements =>
          exact ⟨Codes.VECTOR, _, by
            rw [Item.spelled, Value.spelled, append_assoc], by decide⟩
      | _ =>
          rw [Item.spelled, Value.spelled_of_hasFloats _ rfl]
          obtain ⟨code, payload, written, notEnd, -⟩ :=
            TupleReader.encodeValue_first direction _
          exact ⟨code, payload, written, notEnd⟩
  | below magnitude low high =>
      have nonzero : magnitude ≠ 0 := by omega
      have written := congrArg (extend direction.mask)
        (pushInt_nonzero true nonzero high)
      rw [← pushInt_mask, extend_cons] at written
      refine ⟨intCode true magnitude, _, written, ?_⟩
      · intro isEnd
        have tag := intCode_true_toNat nonzero high
        have bounds := magnitudeLen_bounds nonzero high
        have none : Codes.NUL.toNat = 0 := rfl
        rw [isEnd, none] at tag
        omega

theorem items_regular_of_written
    {items : List Item} {written : List Value}
    (same : encodeElements direction written ++
          (extend direction.mask [Codes.NUL] ++ rest) =
        items.flatMap (Item.spelled direction) ++
          (extend direction.mask [Codes.NUL] ++ rest')) :
    items.any Item.irregular = false := by
  induction items generalizing written with
  | nil => rfl
  | cons item items ih =>
      rw [flatMap_cons, append_assoc] at same
      cases written with
      | nil =>
          obtain ⟨code, payload, spelled, notEnd⟩ := item.spelled_first direction
          rw [encodeElements, nil_append, spelled, append_assoc] at same
          have heads := extend_injective (append_inj_left same
            (by rw [length_extend, length_extend]; rfl))
          exact absurd (cons.inj heads).1.symm notEnd
      | cons value others =>
          rw [encodeElements, append_assoc] at same
          have regular := Item.regular_of_written same
          rw [Item.spelled_of_regular direction regular] at same
          rw [any_cons, regular, ih (encodeValue_append_inj same).2]
          rfl

theorem Element.regular_of_written
    {element : Element}
    (same : encodeValue direction written ++ rest =
      element.spelled direction ++ rest') :
    element.irregular = false := by
  cases element with
  | single item => exact Item.regular_of_written same
  | array items =>
      rw [Element.spelled, append_assoc, append_assoc] at same
      have named := valueType_of_head (by decide) same
      cases written with
      | array elements =>
          rw [encodeValue, append_assoc, append_assoc] at same
          exact items_regular_of_written (append_cancel_left same)
      | _ => cases named

/-! ## Whole tuples -/

namespace TupleReader

/-- Decode the next element as a type, or as its code says. -/
def readAny (reader : TupleReader) (asked : Option ValueType) (direction : Direction) :
    Except TupleError (Value × TupleReader) :=
  match asked with
  | some type => reader.read type direction
  | none => reader.readDynamic direction

/-- Read elements one after the other, each with or without a type. -/
def readEach : List (Option ValueType) → List Direction → TupleReader →
      Except TupleError (List Value × TupleReader)
  | [], _, reader => .ok ([], reader)
  | asked :: others, directions, reader => do
      let (value, reader) ← reader.readAny asked (directions.headD .asc)
      let (values, reader) ← readEach others directions.tail reader
      return (value :: values, reader)

/--
Decode ascending elements until no byte is left.  Every element takes at least
one byte, so a fuel past the length of the buffer is never exhausted.
-/
def readWhole : Nat → TupleReader → Except TupleError (List Value)
  | 0, reader => .error (.truncated reader.pos 1)
  | fuel + 1, reader =>
      if reader.isEmpty then
        .ok []
      else do
        let (value, reader) ← reader.readDynamic .asc
        let values ← readWhole fuel reader
        return value :: values

end TupleReader

/-- Decode elements with or without types, and return the unread remainder. -/
def decodeEach (buf : Bytes) (asked : List (Option ValueType))
    (directions : List Direction) :
    Except TupleError (List Value × Bytes) := do
  let (values, reader) ← TupleReader.readEach asked directions (TupleReader.new buf)
  return (values, reader.remainder)

/-- Decode a whole buffer without schema guidance. -/
def decodeDynamic (buf : Bytes) : Except TupleError (List Value) :=
  TupleReader.readWhole (buf.length + 1) (TupleReader.new buf)

theorem decodePrefixWith_eq
    (buf : Bytes) (types : List ValueType) (directions : List Direction) :
    decodePrefixWith buf types directions =
      decodeEach buf (types.map some) directions := by
  have step (reader : TupleReader) : TupleReader.readAll types directions reader =
        TupleReader.readEach (types.map some) directions reader := by
    induction types generalizing directions reader with
    | nil => rfl
    | cons type types ih =>
        rw [TupleReader.readAll, map_cons, TupleReader.readEach]
        simp only [ih]
        rfl
  rw [decodePrefixWith, decodeEach, step]

namespace TupleReader

variable {reader after : TupleReader}

theorem element_of_readAny
    {asked : Option ValueType} {direction : Direction} {value : Value}
    (success : reader.readAny asked direction = .ok (value, after)) :
    ∃ element : Element,
      reader.remainder = element.spelled direction ++ after.remainder ∧
      element.meaning = value := by
  cases asked with
  | none => exact element_of_readDynamic success
  | some type => exact element_of_read success

theorem elements_of_readEach
    {asked : List (Option ValueType)} {directions : List Direction}
    {values : List Value}
    (success : readEach asked directions reader = .ok (values, after)) :
    ∃ elements : List Element, elements.length = asked.length ∧
      reader.remainder = spelledWith elements directions ++ after.remainder ∧
      elements.map Element.meaning = values := by
  induction asked generalizing directions reader values with
  | nil =>
      cases success
      exact ⟨[], rfl, rfl, rfl⟩
  | cons asked others ih =>
      rw [readEach] at success
      obtain ⟨⟨value, next⟩, read, success⟩ := bind_eq_ok.mp success
      obtain ⟨⟨values', last⟩, readOthers, success⟩ := bind_eq_ok.mp success
      cases success
      obtain ⟨element, front, same⟩ := element_of_readAny read
      obtain ⟨elements, counted, frontOthers, sameOthers⟩ := ih readOthers
      refine ⟨element :: elements, by rw [length_cons, counted]; rfl, ?_,
        by rw [map_cons, same, sameOthers]⟩
      rw [front, frontOthers, spelledWith, append_assoc]

end TupleReader

variable {elements : List Element}

theorem spelledWith_of_regular
    (directions : List Direction)
    (regular : ∀ element ∈ elements, element.irregular = false) :
    spelledWith elements directions =
      encodeWith (elements.map Element.meaning) directions := by
  induction elements generalizing directions with
  | nil => rfl
  | cons element elements ih =>
      rw [spelledWith, map_cons, encodeWith, Element.spelled_of_regular _
        (regular element (mem_cons_self ..)), ih _
        (fun other member => regular other (mem_cons_of_mem _ member))]

theorem Element.spelled_ne_nil
    (direction : Direction) (element : Element) :
    element.spelled direction ≠ [] := by
  cases element with
  | single item =>
      obtain ⟨code, payload, spelled, -⟩ := item.spelled_first direction
      rw [Element.spelled, spelled, extend_cons]
      exact cons_ne_nil _ _
  | array items =>
      rw [Element.spelled, extend_cons]
      exact cons_ne_nil _ _

/--
A tuple that is spelled as one is written has no irregular element, as far as
the written one goes.
-/
theorem regular_of_encodeWith
    {written : List Value} {directions : List Direction} {rest rest' : Bytes}
    (covered : elements.length ≤ written.length ∨ rest = [])
    (same : encodeWith written directions ++ rest =
      spelledWith elements directions ++ rest') :
    ∀ element ∈ elements, element.irregular = false := by
  induction elements generalizing written directions with
  | nil =>
      intro element member
      cases member
  | cons element elements ih =>
      rw [spelledWith, append_assoc] at same
      cases written with
      | nil =>
          rcases covered with short | nothing
          · cases short
          · rw [nothing] at same
            exact absurd (append_eq_nil_iff.mp same.symm).1 (element.spelled_ne_nil _)
      | cons value others =>
          rw [encodeWith, append_assoc] at same
          have regular := Element.regular_of_written same
          rw [Element.spelled_of_regular _ regular] at same
          have others := ih (covered.imp_left Nat.le_of_succ_le_succ)
            (encodeValue_append_inj same).2
          intro other member
          rcases mem_cons.mp member with rfl | member
          · exact regular
          · exact others other member

namespace TupleReader

theorem length_of_readDynamic
    {direction : Direction} {reader after : TupleReader} {value : Value}
    (success : reader.readDynamic direction = .ok (value, after)) :
    after.remainder.length < reader.remainder.length := by
  obtain ⟨element, front, -⟩ := element_of_readDynamic success
  have some := length_pos_iff.mpr (element.spelled_ne_nil direction)
  rw [front, length_append]
  omega

/-- A buffer is read whole when its elements are read one after the other. -/
theorem readWhole_eq_ok_iff
    {fuel : Nat} {reader : TupleReader}
    (enough : reader.remainder.length < fuel)
    (values : List Value) :
    readWhole fuel reader = .ok values ↔
      ∃ pos, readEach (replicate values.length none) [] reader =
        .ok (values, ⟨pos, []⟩) := by
  induction fuel generalizing reader values with
  | zero => cases enough
  | succ fuel ih =>
      obtain ⟨start, remainder⟩ := reader
      cases remainder with
      | nil =>
          rw [readWhole, if_pos (by rfl)]
          cases values with
          | nil => exact ⟨fun _ => ⟨start, rfl⟩, fun _ => rfl⟩
          | cons value others =>
              constructor
              · intro success
                cases success
              · rintro ⟨pos, success⟩
                rw [length_cons, replicate_succ, readEach] at success
                obtain ⟨⟨value', next⟩, read, -⟩ := bind_eq_ok.mp success
                exact absurd (length_of_readDynamic read) (Nat.not_lt_zero _)
      | cons byte bytes =>
          rw [readWhole, if_neg (by simp [isEmpty])]
          constructor
          · intro success
            obtain ⟨⟨value, next⟩, read, success⟩ := bind_eq_ok.mp success
            obtain ⟨others, readOthers, success⟩ := bind_eq_ok.mp success
            cases success
            have shorter := length_of_readDynamic read
            obtain ⟨pos, readEach'⟩ := (ih (by omega) others).mp readOthers
            refine ⟨pos, ?_⟩
            rw [length_cons, replicate_succ, readEach]
            exact bind_eq_ok.mpr ⟨_, read, bind_eq_ok.mpr ⟨_, readEach', rfl⟩⟩
          · rintro ⟨pos, success⟩
            cases values with
            | nil => cases success
            | cons value others =>
                rw [length_cons, replicate_succ, readEach] at success
                obtain ⟨⟨value', next⟩, read, success⟩ := bind_eq_ok.mp success
                obtain ⟨⟨others', last⟩, readOthers, success⟩ := bind_eq_ok.mp success
                cases success
                have shorter := length_of_readDynamic read
                have readWhole' := (ih (by omega) others).mpr ⟨pos, readOthers⟩
                exact bind_eq_ok.mpr ⟨_, read, bind_eq_ok.mpr ⟨_, readWhole', rfl⟩⟩

end TupleReader

theorem decodeDynamic_eq_ok_iff
    (buf : Bytes) (values : List Value) :
    decodeDynamic buf = .ok values ↔
      decodeEach buf (replicate values.length none) [] = .ok (values, []) := by
  rw [decodeDynamic, TupleReader.readWhole_eq_ok_iff (Nat.lt_succ_self buf.length)]
  constructor
  · rintro ⟨pos, read⟩
    rw [decodeEach, read]
    rfl
  · intro success
    obtain ⟨⟨values', ⟨pos, rest⟩⟩, read, success⟩ := bind_eq_ok.mp success
    cases success
    exact ⟨pos, read⟩

/-! ## Writing again what was read -/

variable {asked : List (Option ValueType)} {values : List Value}
  {directions : List Direction}

section

variable
  {bytes rest : Bytes}
  (success : decodeEach bytes asked directions = .ok (values, rest))

include success

theorem elements_of_decodeEach :
    ∃ elements : List Element, elements.length = asked.length ∧
      bytes = spelledWith elements directions ++ rest ∧
      elements.map Element.meaning = values := by
  obtain ⟨⟨values', after⟩, read, success⟩ := bind_eq_ok.mp success
  cases success
  exact TupleReader.elements_of_readEach read

theorem encodeWith_of_decodeEach_iff :
    encodeWith values directions ++ rest = bytes ↔
      ¬ Misspelled bytes asked.length directions := by
  obtain ⟨elements, counted, front, meaning⟩ := elements_of_decodeEach success
  constructor
  · rintro same ⟨elements', rest', counted', front', element, member, irregular⟩
    have sameLength : elements'.length ≤ values.length := by
      rw [← meaning, length_map, counted, counted']
    have regular := regular_of_encodeWith (.inl sameLength)
      (same.trans front') element member
    rw [regular] at irregular
    cases irregular
  · intro spelledWell
    have regular : ∀ element ∈ elements, element.irregular = false := by
      intro element member
      by_contra irregular
      rw [Bool.not_eq_false] at irregular
      exact spelledWell ⟨elements, rest, counted, front, element, member, irregular⟩
    rw [front, spelledWith_of_regular directions regular, meaning]

end

theorem encode_of_decodeDynamic_iff
    {bytes : Bytes}
    (success : decodeDynamic bytes = .ok values) :
    encode values = bytes ↔ ∀ count, ¬ Misspelled bytes count [] := by
  rw [decodeDynamic_eq_ok_iff] at success
  constructor
  · rintro same count ⟨elements, rest, -, front, element, member, irregular⟩
    have written : encodeWith values [] ++ [] = spelledWith elements [] ++ rest := by
      rw [append_nil, ← front]
      exact same
    have regular := regular_of_encodeWith (.inr rfl) written element member
    rw [regular] at irregular
    cases irregular
  · intro spelledWell
    have whole := (encodeWith_of_decodeEach_iff success).mpr (spelledWell _)
    rw [append_nil] at whole
    exact whole

theorem consumed_of_decodeEach
    {bytes bytes' rest rest' : Bytes} {values values' : List Value}
    (success : decodeEach bytes asked directions = .ok (values, rest))
    (success' : decodeEach bytes' asked directions = .ok (values', rest'))
    (same : (values == values') = true)
    (spelled : ¬ Misspelled bytes asked.length directions)
    (spelled' : ¬ Misspelled bytes' asked.length directions) :
    ∃ consumed, bytes = consumed ++ rest ∧ bytes' = consumed ++ rest' := by
  have written : encodeWith values directions = encodeWith values' directions := by
    rw [← encodeWith_canonical values, ← encodeWith_canonical values',
      (Value.beq_list_iff_canonical values values').mp same]
  refine ⟨encodeWith values directions,
    ((encodeWith_of_decodeEach_iff success).mpr spelled).symm, ?_⟩
  rw [written]
  exact ((encodeWith_of_decodeEach_iff success').mpr spelled').symm

/--
What a decoder makes of bytes is written as these bytes exactly when they are
not misspelled, whether it decodes with types, without them or a whole buffer;
and bytes that are not misspelled are the only ones that decode to their tuple.
-/
theorem reencodes_iff
    (bytes : Bytes) :
    (∀ asked directions values rest,
      decodeEach bytes asked directions = .ok (values, rest) →
        (encodeWith values directions ++ rest = bytes ↔
            ¬ Misspelled bytes asked.length directions) ∧
          ∀ bytes' values' rest',
            decodeEach bytes' asked directions = .ok (values', rest') →
            (values == values') = true →
            ¬ Misspelled bytes asked.length directions →
            ¬ Misspelled bytes' asked.length directions →
            ∃ consumed, bytes = consumed ++ rest ∧ bytes' = consumed ++ rest') ∧
    (∀ types directions values rest,
      decodePrefixWith bytes types directions = .ok (values, rest) →
        (encodeWith values directions ++ rest = bytes ↔
          ¬ Misspelled bytes types.length directions)) ∧
    (∀ values, decodeDynamic bytes = .ok values →
        (encode values = bytes ↔ ∀ count, ¬ Misspelled bytes count [])) := by
  refine ⟨?_, ?_, fun values => encode_of_decodeDynamic_iff⟩
  · intro asked directions values rest success
    refine ⟨encodeWith_of_decodeEach_iff success, ?_⟩
    intro bytes' values' rest' success' same spelled spelled'
    exact consumed_of_decodeEach success success' same spelled spelled'
  · intro types directions values rest success
    rw [decodePrefixWith_eq] at success
    rw [encodeWith_of_decodeEach_iff success, length_map]

/-- A double whose bits are a NaN with a payload, as its bytes. -/
def payloadNan : Bytes := [0x21, 0xFF, 0xF8, 0x00, 0x00, 0x00, 0x00, 0x00, 0x01]

/-- The integer `-2^63 - 1`, as its bytes. -/
def belowSigned : Bytes := [0x0D, 0x7F, 0xFF, 0xFF, 0xFF, 0xFF, 0xFF, 0xFF, 0xFE]

/-- A double and an integer that are read and not written as they were. -/
theorem not_reencodes_payloadNan :
    (∃ values, decodePrefixWith payloadNan [.f64] [] = .ok (values, []) ∧
      encodeWith values [] ++ [] ≠ payloadNan) ∧
    (∃ values, decodeDynamic belowSigned = .ok values ∧ encode values ≠ belowSigned ∧
      decodeDynamic (encode values) = .ok values) := by
  refine ⟨⟨[.f64 0x7FF8000000000001], rfl, by decide⟩, ?_⟩
  exact ⟨[.u64 0x8000000000000001], rfl, by decide, rfl⟩

/-- The bytes of a string and a descending integer spell them as writers do. -/
theorem reencodes_text :
    decodePrefixWith [0x05, 0x61, 0x00, 0x00, 0xEB, 0x01] [.str, .i64]
        [.asc, .desc] = .ok ([.str "a", .i64 (-1)], []) ∧
      ¬ Misspelled [0x05, 0x61, 0x00, 0x00, 0xEB, 0x01] 2 [.asc, .desc] := by
  have read : decodePrefixWith [0x05, 0x61, 0x00, 0x00, 0xEB, 0x01]
      [.str, .i64] [.asc, .desc] = .ok ([.str "a", .i64 (-1)], []) := rfl
  refine ⟨read, ?_⟩
  exact ((reencodes_iff _).2.1 _ _ _ _ read).mp (by decide)

/-! ## Reading again what was written -/

/-- A tuple that is read back before any bytes, and leaves these bytes. -/
def RoundTrips (values : List Value) (types : List ValueType)
    (directions : List Direction)
    (rest : Bytes) : Prop :=
  ∃ found, decodePrefixWith (encodeWith values directions ++ rest) types directions =
      .ok (found, rest) ∧
    (found == values) = true

theorem decodePrefixWith_encodeWith
    {types : List ValueType} (typed : Typed values types)
    (directions : List Direction) (rest : Bytes) :
    decodePrefixWith (encodeWith values directions ++ rest) types directions =
      .ok (values.map Value.decoded, rest) := by
  obtain ⟨pos, read⟩ := readAll_reads values types directions 0 rest typed
  rw [decodePrefixWith, TupleReader.new, read]
  rfl

theorem fits_of_decoded
    (same : (values.map Value.decoded == values) = true) :
    ∀ value ∈ values, value.fits = true := by
  intro value member
  rw [Value.beq_list_iff_canonical, map_map, map_inj_left] at same
  have here := same value member
  rw [Function.comp_apply, Value.canonical_decoded] at here
  exact Value.fits_of_coded here

/-- A tuple is read back exactly when its vectors fit their counts. -/
theorem roundTrips_iff
    {values : List Value} {types : List ValueType} (typed : Typed values types)
    (directions : List Direction) (rest : Bytes) :
    RoundTrips values types directions rest ↔ ∀ value ∈ values, value.fits = true := by
  have decoded := decodePrefixWith_encodeWith typed directions rest
  constructor
  · rintro ⟨found, success, same⟩
    rw [decoded] at success
    cases success
    exact fits_of_decoded same
  · intro fits
    refine ⟨_, decoded, ?_⟩
    rw [Value.beq_list_iff_canonical, map_map, map_inj_left]
    intro value member
    rw [Function.comp_apply, Value.canonical_decoded,
      Value.coded_of_fits (fits value member)]

/-- A string before an escape byte and a descending integer is read back. -/
theorem roundTrips_text :
    RoundTrips [.str "a", .i64 (-1)] [.str, .i64] [.asc, .desc] [0xFF] := by
  refine (roundTrips_iff ?_ _ _).mpr ?_
  · exact ⟨.inl rfl, rfl, .inl rfl, rfl, trivial⟩
  · intro value member
    rcases mem_cons.mp member with rfl | member
    · rfl
    · rw [mem_singleton.mp member]
      rfl

/-- A vector of `2^32` elements is not read back. -/
theorem not_roundTrips_overlongVector :
    ¬ RoundTrips [overlongVector] [.vector] [] [] := by
  rintro ⟨found, success, same⟩
  have typed : Typed [overlongVector] [.vector] := ⟨.inl rfl, rfl, trivial⟩
  rw [decodePrefixWith_encodeWith typed] at success
  cases success
  have fits := fits_of_decoded same overlongVector (mem_singleton_self _)
  rw [overlongVector, Value.fits, decide_eq_true_eq, length_replicate] at fits
  exact absurd fits (by decide)

end SlateOrm
