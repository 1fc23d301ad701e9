import SlateOrm.RowReading

namespace SlateOrm

open List

/-!
# Reading what was read

Whatever bytes a tuple is decoded from, its values have the types it was read
with, and none of them is more than an encoding can hold.  So they are encoded
to bytes that are decoded to the same values, even where the bytes they came
from are not the ones that a writer would have chosen.
-/

/-- A value that its own encoding holds in full. -/
structure Value.Recodes (value : Value) : Prop where
  flat : value.flat = true
  fits : value.fits = true

theorem Value.recodes_array
    {elements : List Value}
    (each : ∀ element ∈ elements, element.isArray = false ∧ element.fits = true) :
    (Value.array elements).Recodes := by
  constructor
  · rw [Value.flat, all_eq_true]
    intro element member
    rw [(each element member).1]
    rfl
  · rw [Value.fits]
    induction elements with
    | nil => rfl
    | cons element rest ih =>
        rw [Value.fitsList, (each element (mem_cons_self ..)).2, ih
          (fun other member => each other (mem_cons_of_mem _ member))]
        rfl

namespace TupleReader

theorem fromBeBytes_lt
    (bytes : Bytes) :
    fromBeBytes bytes < 256 ^ bytes.length := by
  have step (known : Nat) :
      bytes.foldl (fun number byte => number * 256 + byte.toNat) known <
        (known + 1) * 256 ^ bytes.length := by
    induction bytes generalizing known with
    | nil => simp
    | cons byte rest ih =>
        have small := byte.toNat_lt
        calc (byte :: rest).foldl (fun number byte => number * 256 + byte.toNat)
              known
            < (known * 256 + byte.toNat + 1) * 256 ^ rest.length := ih _
          _ ≤ ((known + 1) * 256) * 256 ^ rest.length :=
              Nat.mul_le_mul_right _ (by omega)
          _ = (known + 1) * 256 ^ (byte :: rest).length := by
              rw [length_cons, Nat.pow_succ', Nat.mul_assoc]
  simpa [fromBeBytes] using step 0

variable {reader after : TupleReader} {mask : UInt8} {value : Value}

theorem length_of_readVector
    {count : Nat} {elements : List F32}
    (success : readVector mask count reader = .ok (elements, after)) :
    elements.length = count := by
  induction count generalizing reader elements with
  | zero =>
      cases success
      rfl
  | succ count ih =>
      obtain ⟨⟨raw, next⟩, _, success⟩ := bind_eq_ok.mp success
      obtain ⟨⟨others, last⟩, read, success⟩ := bind_eq_ok.mp success
      cases success
      rw [length_cons, ih read]

theorem le_of_takeU32
    {count : Nat}
    (success : reader.takeU32 mask = .ok (count, after)) :
    count ≤ u32Max := by
  obtain ⟨⟨raw, next⟩, read, success⟩ := bind_eq_ok.mp success
  cases success
  rw [take] at read
  split at read
  · next enough =>
      cases read
      have small := fromBeBytes_lt ((reader.remainder.take 4).map (· ^^^ mask))
      rw [length_map, length_take, Nat.min_eq_left enough] at small
      have limit : 256 ^ 4 = u32Max + 1 := by decide
      omega
  · cases read

/-- What a body that is no array is read as. -/
structure Scalar (code : UInt8) (value : Value) : Prop where
  typed : value.valueType = codeName code
  notArray : value.isArray = false
  fits : value.fits = true

/-- A body is an array's, or what is read has the type its code names. -/
theorem scalar_of_readBodyWith
    {array : TupleReader → Except TupleError (Value × TupleReader)}
    {code mask : UInt8} {start : Nat}
    (success : readBodyWith array reader code mask start = .ok (value, after)) :
    (code = Codes.ARRAY ∧ array reader = .ok (value, after)) ∨ Scalar code value := by
  unfold readBodyWith at success
  split at success
  · next isFalse =>
      cases success
      exact .inr ⟨by rw [isFalse]; rfl, rfl, rfl⟩
  split at success
  · next isTrue =>
      cases success
      exact .inr ⟨by rw [isTrue]; rfl, rfl, rfl⟩
  split at success
  · next isBytes =>
      obtain ⟨⟨raw, next⟩, _, success⟩ := bind_eq_ok.mp success
      cases success
      exact .inr ⟨by rw [isBytes]; rfl, rfl, rfl⟩
  split at success
  · next isStr =>
      obtain ⟨⟨raw, next⟩, _, success⟩ := bind_eq_ok.mp success
      dsimp only at success
      split at success
      · cases success
        exact .inr ⟨by rw [isStr]; rfl, rfl, rfl⟩
      · cases success
  split at success
  · next isDecimal =>
      obtain ⟨⟨inner, next⟩, _, success⟩ := bind_eq_ok.mp success
      dsimp only at success
      split at success
      · cases success
      · obtain ⟨⟨⟨negative, magnitude⟩, next'⟩, _, success⟩ := bind_eq_ok.mp success
        dsimp only at success
        split at success
        · cases success
          exact .inr ⟨by rw [isDecimal]; rfl, rfl, rfl⟩
        · cases success
  split at success
  · next isFloat =>
      obtain ⟨⟨raw, next⟩, _, success⟩ := bind_eq_ok.mp success
      cases success
      exact .inr ⟨by rw [isFloat]; rfl, rfl, rfl⟩
  split at success
  · next isUuid =>
      obtain ⟨⟨raw, next⟩, _, success⟩ := bind_eq_ok.mp success
      cases success
      exact .inr ⟨by rw [isUuid]; rfl, rfl, rfl⟩
  split at success
  · next isVector =>
      obtain ⟨⟨count, next⟩, counted, success⟩ := bind_eq_ok.mp success
      obtain ⟨⟨elements, next'⟩, read, success⟩ := bind_eq_ok.mp success
      cases success
      refine .inr ⟨by rw [isVector]; rfl, rfl, ?_⟩
      have counts := length_of_readVector read
      have small := le_of_takeU32 counted
      rw [Value.fits, decide_eq_true_eq]
      omega
  split at success
  · next isArray => exact .inl ⟨isArray, success⟩
  · cases success

theorem element_of_readDynamicWith
    {error : TupleError}
    (success : readDynamicWith (fun _ => .error error) reader mask =
      .ok (value, after)) :
    value.isArray = false ∧ value.fits = true := by
  obtain ⟨⟨code, next⟩, _, success⟩ := bind_eq_ok.mp success
  dsimp only at success
  split at success
  · cases success
    exact ⟨rfl, rfl⟩
  split at success
  · obtain ⟨⟨⟨negative, magnitude⟩, next'⟩, _, success⟩ := bind_eq_ok.mp success
    dsimp only at success
    split at success
    · cases success
      exact ⟨rfl, rfl⟩
    · cases success
      exact ⟨rfl, rfl⟩
  · rcases scalar_of_readBodyWith success with ⟨_, nested⟩ | scalar
    · cases nested
    · exact ⟨scalar.notArray, scalar.fits⟩

theorem elements_of_readArrayElements
    {fuel : Nat} {elements : List Value}
    (success : readArrayElements mask fuel reader = .ok (elements, after)) :
    ∀ element ∈ elements, element.isArray = false ∧ element.fits = true := by
  induction fuel generalizing reader elements with
  | zero => cases success
  | succ fuel ih =>
      rw [readArrayElements] at success
      obtain ⟨⟨code, next⟩, _, success⟩ := bind_eq_ok.mp success
      dsimp only at success
      split at success
      · cases success
        intro element member
        cases member
      split at success
      · cases success
      obtain ⟨⟨head, next'⟩, readHead, success⟩ := bind_eq_ok.mp success
      obtain ⟨⟨others, last⟩, readOthers, success⟩ := bind_eq_ok.mp success
      cases success
      intro element member
      rcases mem_cons.mp member with rfl | member
      · exact element_of_readDynamicWith readHead
      · exact ih readOthers element member

theorem recodes_of_readArray
    (success : reader.readArray mask = .ok (value, after)) :
    value.valueType = some .array ∧ value.Recodes := by
  obtain ⟨⟨elements, next⟩, read, success⟩ := bind_eq_ok.mp success
  cases success
  exact ⟨rfl, Value.recodes_array (elements_of_readArrayElements read)⟩

/-- A value is read with the type that is expected, or is null. -/
theorem typed_of_read
    {type : ValueType} {direction : Direction}
    (success : reader.read type direction = .ok (value, after)) :
    (value.valueType = some type ∨ value = .null) ∧ value.Recodes := by
  obtain ⟨⟨code, next⟩, _, success⟩ := bind_eq_ok.mp success
  dsimp only at success
  split at success
  · cases success
    exact ⟨.inr rfl, ⟨rfl, rfl⟩⟩
  split at success
  · obtain ⟨⟨⟨negative, magnitude⟩, next'⟩, _, success⟩ := bind_eq_ok.mp success
    dsimp only at success
    cases type with
    | i64
    | u64 =>
        dsimp only at success
        split at success
        · cases success
          exact ⟨.inl rfl, ⟨rfl, rfl⟩⟩
        · cases success
    | _ => cases success
  split at success
  · cases success
  · next named =>
      split at success
      · cases success
      · next same =>
          have isType := not_not.mp same
          rcases scalar_of_readBodyWith success with ⟨isArray, read⟩ | scalar
          · obtain ⟨isTyped, recodes⟩ := recodes_of_readArray read
            rw [isArray] at named
            cases named
            exact ⟨.inl (isTyped.trans (congrArg some isType)), recodes⟩
          · refine ⟨.inl ?_, ?_, scalar.fits⟩
            · rw [scalar.typed, named, isType]
            · have notArray := scalar.notArray
              cases value with
              | array elements => cases notArray
              | _ => rfl

end TupleReader

variable {types : List ValueType} {values : List Value} {bytes : Bytes}

theorem typed_of_readAll
    {directions : List Direction} {reader after : TupleReader}
    (success : TupleReader.readAll types directions reader = .ok (values, after)) :
    Typed values types ∧ ∀ value ∈ values, value.fits = true := by
  induction types generalizing directions reader values with
  | nil =>
      cases success
      exact ⟨trivial, fun _ nothing => by cases nothing⟩
  | cons type types ih =>
      rw [TupleReader.readAll] at success
      obtain ⟨⟨value, next⟩, read, success⟩ := bind_eq_ok.mp success
      obtain ⟨⟨others, last⟩, readOthers, success⟩ := bind_eq_ok.mp success
      cases success
      obtain ⟨typed, recodes⟩ := TupleReader.typed_of_read read
      obtain ⟨othersTyped, othersFit⟩ := ih readOthers
      refine ⟨⟨typed, recodes.flat, othersTyped⟩, ?_⟩
      intro other member
      rcases mem_cons.mp member with rfl | member
      · exact recodes.fits
      · exact othersFit other member

theorem typed_of_decode
    (success : decode bytes types = .ok values) :
    Typed values types ∧ ∀ value ∈ values, value.fits = true := by
  obtain ⟨⟨decoded, rest⟩, read, success⟩ := bind_eq_ok.mp success
  obtain ⟨⟨decoded', reader⟩, readAll, same⟩ := bind_eq_ok.mp read
  cases same
  dsimp only at success
  split at success
  · cases success
    exact typed_of_readAll readAll
  · cases success

theorem coded_of_decode
    (success : decode bytes types = .ok values) :
    values.map Value.coded = values.map Value.canonical :=
  map_congr_left (fun value member =>
    Value.coded_of_fits ((typed_of_decode success).2 value member))

theorem decode_encode_of_decode
    (success : decode bytes types = .ok values) :
    ∃ again, decode (encode values) types = .ok again ∧
      again.map Value.canonical = values.map Value.canonical := by
  refine ⟨_, decode_encode (typed_of_decode success).1, ?_⟩
  rw [map_map, ← coded_of_decode success]
  exact map_congr_left (fun value _ => Value.canonical_decoded value)

end SlateOrm
