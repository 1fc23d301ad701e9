import SlateOrm.TupleValue

namespace SlateOrm

/-!
# The tuple codec

Every element is a type code and a self-delimiting payload.  A descending
element is the ascending encoding with every byte complemented, which the
writer and the reader do with one mask per element.

The reader keeps the byte offset of the next unread element, because its
errors report offsets, and the unread remainder of the buffer.
-/

/-- Sort direction of a single encoded element. -/
inductive Direction where
  | asc
  | desc
  deriving DecidableEq, Repr, Inhabited

namespace Direction

/-- The mask applied to every byte of an element in this direction. -/
def mask : Direction → UInt8
  | asc => 0x00
  | desc => 0xFF

end Direction

namespace Codes

def NULL : UInt8 := 0x01
def FALSE : UInt8 := 0x02
def TRUE : UInt8 := 0x03
def BYTES : UInt8 := 0x04
def STR : UInt8 := 0x05
def INT_ZERO : UInt8 := 0x15
def INT_MIN : UInt8 := INT_ZERO - 8
def INT_MAX : UInt8 := INT_ZERO + 8
def DECIMAL : UInt8 := 0x1E
def F64 : UInt8 := 0x21
def UUID : UInt8 := 0x22
def VECTOR : UInt8 := 0x23
def ARRAY : UInt8 := 0x24
def NUL : UInt8 := 0x00
def ESCAPE : UInt8 := 0xFF

/-- Whether a type code is one of the seventeen integer codes. -/
def isInt (code : UInt8) : Bool := INT_MIN ≤ code && code ≤ INT_MAX

end Codes

/-- The largest element count a vector's length prefix can hold. -/
def u32Max : Nat := 2 ^ 32 - 1

/-- The big-endian bytes of a number in a fixed width. -/
def toBeBytes : Nat → Nat → Bytes
  | 0, _ => []
  | width + 1, number => UInt8.ofNat (number / 256 ^ width) :: toBeBytes width number

/-- The number that big-endian bytes stand for. -/
def fromBeBytes (bytes : Bytes) : Nat :=
  bytes.foldl (fun number byte => number * 256 + byte.toNat) 0

/-- Bit patterns whose unsigned order is the order of the floats. -/
def floatToOrdered {width : Nat} (bits : BitVec width) : BitVec width :=
  if bits &&& BitVec.intMin width = 0 then
    bits ^^^ BitVec.intMin width
  else
    ~~~bits

/-- Inverse of `floatToOrdered`. -/
def orderedToFloat {width : Nat} (ordered : BitVec width) : BitVec width :=
  if ordered &&& BitVec.intMin width = 0 then
    ~~~ordered
  else
    ordered ^^^ BitVec.intMin width

/-- Map a double onto bits whose unsigned order matches float order. -/
def f64ToOrdered (value : F64) : BitVec 64 :=
  floatToOrdered (if F64.isNan value then F64.nan else value)

/-- `f64ToOrdered` for a 32-bit float. -/
def f32ToOrdered (value : F32) : BitVec 32 :=
  floatToOrdered (if F32.isNan value then F32.nan else value)

/-- Number of leading zero bits of a 64-bit magnitude. -/
def leadingZeros (magnitude : Nat) : Nat :=
  if magnitude = 0 then 64 else 63 - magnitude.log2

/-- Minimal number of big-endian bytes needed to hold a 64-bit magnitude. -/
def magnitudeLen (magnitude : Nat) : Nat := 8 - leadingZeros magnitude / 8

/-! ## Writing -/

/-- Append bytes to a masked sink. -/
def extend (mask : UInt8) (bytes : Bytes) : Bytes := bytes.map (· ^^^ mask)

/-- A byte string with every zero byte followed by the escape marker. -/
def escape : Bytes → Bytes
  | [] => []
  | byte :: rest =>
      if byte = Codes.NUL then
        byte :: Codes.ESCAPE :: escape rest
      else
        byte :: escape rest

/-- Write a byte string: escaped, and ended by two zero bytes. -/
def pushEscaped (mask : UInt8) (bytes : Bytes) : Bytes :=
  extend mask (escape bytes ++ [Codes.NUL, Codes.NUL])

/-- Write an integer given by its sign and its 64-bit magnitude. -/
def pushInt (mask : UInt8) (negative : Bool) (magnitude : Nat) : Bytes :=
  if magnitude = 0 then
    extend mask [Codes.INT_ZERO]
  else
    let len := magnitudeLen magnitude
    let code := if negative then
        Codes.INT_ZERO - UInt8.ofNat len
      else
        Codes.INT_ZERO + UInt8.ofNat len
    let digits := (toBeBytes 8 magnitude).drop (8 - len)
    extend mask (code :: digits.map (fun byte => if negative then ~~~byte else byte))

/--
Write the start of a string or byte value, without its terminator.  Other
values have no meaningful prefixes.
-/
def encodePrefix (value : Value) (direction : Direction) : Option Bytes :=
  match value with
  | .bytes bytes => some (extend direction.mask (Codes.BYTES :: escape bytes))
  | .str text => some (extend direction.mask (Codes.STR :: escape (utf8 text)))
  | _ => none

mutual

/-- The encoding of one element. -/
def encodeValue (direction : Direction) : Value → Bytes
  | .null => extend direction.mask [Codes.NULL]
  | .bool false => extend direction.mask [Codes.FALSE]
  | .bool true => extend direction.mask [Codes.TRUE]
  | .bytes bytes =>
      extend direction.mask [Codes.BYTES] ++ pushEscaped direction.mask bytes
  | .str text =>
      extend direction.mask [Codes.STR] ++ pushEscaped direction.mask (utf8 text)
  | .i64 value => pushInt direction.mask (value.toInt < 0) value.toInt.natAbs
  | .u64 value => pushInt direction.mask false value.toNat
  | .decimal units =>
      extend direction.mask [Codes.DECIMAL] ++
        pushInt direction.mask (units.toInt < 0) units.toInt.natAbs
  | .f64 value =>
      extend direction.mask [Codes.F64] ++
        extend direction.mask (toBeBytes 8 (f64ToOrdered value).toNat)
  | .vector elements =>
      -- A count past `u32Max` saturates, and only that many elements follow.
      let count := min elements.length u32Max
      extend direction.mask [Codes.VECTOR] ++
        extend direction.mask (toBeBytes 4 count) ++
        extend direction.mask ((elements.take count).flatMap
            (fun element => toBeBytes 4 (f32ToOrdered element).toNat))
  | .uuid value =>
      extend direction.mask [Codes.UUID] ++ extend direction.mask value.bytes
  | .array elements =>
      extend direction.mask [Codes.ARRAY] ++ encodeElements direction elements ++
        extend direction.mask [Codes.NUL]

/-- The encodings of an array's elements, one after the other. -/
def encodeElements (direction : Direction) : List Value → Bytes
  | [] => []
  | value :: rest => encodeValue direction value ++ encodeElements direction rest

end

/--
Encode a tuple, taking each element's direction from `directions`.  Elements
past the end of `directions` are ascending.
-/
def encodeWith : List Value → List Direction → Bytes
  | [], _ => []
  | value :: rest, directions =>
      encodeValue (directions.headD .asc) value ++ encodeWith rest directions.tail

/-- Encode a tuple with every element ascending. -/
def encode (values : List Value) : Bytes := encodeWith values []

/-! ## Reading -/

namespace ValueType

/-- A human-readable name, used in error messages. -/
def name : ValueType → String
  | bool => "bool"
  | bytes => "bytes"
  | str => "string"
  | i64 => "i64"
  | u64 => "u64"
  | f64 => "f64"
  | decimal => "decimal"
  | uuid => "uuid"
  | vector => "vector"
  | array => "array"

end ValueType

/-- Errors produced by the tuple codec. -/
inductive TupleError where
  | truncated (offset needed : Nat)
  | unknownTypeCode (offset : Nat) (code : UInt8)
  | typeMismatch (offset : Nat) (expected found : String)
  | integerOutOfRange (offset : Nat) (value : Int) (target : String)
  | invalidUtf8 (offset : Nat)
  | malformedEscape (offset : Nat)
  | nonCanonicalInteger (offset : Nat)
  | trailingBytes (decoded remaining : Nat)
  deriving DecidableEq, Repr

/-- A cursor over an encoded tuple. -/
structure TupleReader where
  pos : Nat
  remainder : Bytes
  deriving DecidableEq, Repr

namespace TupleReader

/-- Start reading at the beginning of a buffer. -/
def new (buf : Bytes) : TupleReader where
  pos := 0
  remainder := buf

/-- Whether every byte has been consumed. -/
def isEmpty (reader : TupleReader) : Bool := reader.remainder.isEmpty

/-- The reader after some of its bytes. -/
def skipped (reader : TupleReader) (count : Nat) : TupleReader where
  pos := reader.pos + count
  remainder := reader.remainder.drop count

/-- Read one byte. -/
def byte (reader : TupleReader) (mask : UInt8) :
    Except TupleError (UInt8 × TupleReader) :=
  match reader.remainder with
  | [] => .error (.truncated reader.pos 1)
  | byte :: rest => .ok (byte ^^^ mask, ⟨reader.pos + 1, rest⟩)

/-- Read a fixed number of bytes. -/
def take (reader : TupleReader) (count : Nat) (mask : UInt8) :
    Except TupleError (Bytes × TupleReader) :=
  if count ≤ reader.remainder.length then
    .ok ((reader.remainder.take count).map (· ^^^ mask), reader.skipped count)
  else
    .error (.truncated reader.pos (count - reader.remainder.length))

/-- A big-endian 32-bit number, for a vector's element count. -/
def takeU32 (reader : TupleReader) (mask : UInt8) :
    Except TupleError (Nat × TupleReader) := do
  let (raw, reader) ← reader.take 4 mask
  return (fromBeBytes raw, reader)

/-- Read a zero-escaped byte string up to its terminator. -/
def readEscapedFrom (mask : UInt8) (pos : Nat) :
    Bytes → Except TupleError (Bytes × TupleReader)
  | [] => .error (.truncated pos 1)
  | first :: rest =>
      if first ^^^ mask ≠ Codes.NUL then do
        let (out, reader) ← readEscapedFrom mask (pos + 1) rest
        return ((first ^^^ mask) :: out, reader)
      else
        match rest with
        | [] => .error (.truncated (pos + 1) 1)
        | second :: rest =>
            if second ^^^ mask = Codes.NUL then
              .ok ([], ⟨pos + 2, rest⟩)
            else if second ^^^ mask = Codes.ESCAPE then do
              let (out, reader) ← readEscapedFrom mask (pos + 2) rest
              return (Codes.NUL :: out, reader)
            else
              .error (.malformedEscape pos)

/-- Read a zero-escaped byte string. -/
def readEscaped (reader : TupleReader) (mask : UInt8) :
    Except TupleError (Bytes × TupleReader) :=
  readEscapedFrom mask reader.pos reader.remainder

/-- Read the magnitude bytes of an integer onto those already read. -/
def readMagnitude (mask : UInt8) (negative : Bool) :
    Nat → Nat → TupleReader → Except TupleError (Nat × TupleReader)
  | 0, magnitude, reader => .ok (magnitude, reader)
  | len + 1, magnitude, reader => do
      let (byte, reader) ← reader.byte mask
      let byte := if negative then ~~~byte else byte
      readMagnitude mask negative len (magnitude * 256 + byte.toNat) reader

/-- Number of magnitude bytes that follow an integer's code. -/
def intLen (code : UInt8) : Nat := if code > Codes.INT_ZERO then
    (code - Codes.INT_ZERO).toNat
  else
    (Codes.INT_ZERO - code).toNat

/-- Read an integer body, returning its sign and magnitude. -/
def readIntBody (reader : TupleReader) (code mask : UInt8) (start : Nat) :
    Except TupleError ((Bool × Nat) × TupleReader) :=
  if code = Codes.INT_ZERO then
    .ok ((false, 0), reader)
  else do
    let negative := !decide (code > Codes.INT_ZERO)
    let len := intLen code
    let (magnitude, reader) ← readMagnitude mask negative len 0 reader
    -- One value must have exactly one encoding.
    if magnitudeLen magnitude ≠ len then
      .error (.nonCanonicalInteger start)
    else
      .ok ((negative, magnitude), reader)

/-- The number that a sign and a magnitude stand for. -/
def widened (negative : Bool) (magnitude : Nat) : Int :=
  if negative then -(magnitude : Int) else magnitude

/-- Narrow to a signed 64-bit integer. -/
def tryI64 (number : Int) : Option Int64 := if -2 ^ 63 ≤ number ∧ number < 2 ^ 63 then
    some (Int64.ofInt number)
  else
    none

/-- Narrow to an unsigned 64-bit integer. -/
def tryU64 (number : Int) : Option UInt64 := if 0 ≤ number ∧ number < 2 ^ 64 then
    some (UInt64.ofNat number.toNat)
  else
    none

/-- Read an integer as the integer type that is expected. -/
def readIntAs (reader : TupleReader) (code mask : UInt8) (start : Nat)
    (target : ValueType) :
    Except TupleError (Value × TupleReader) := do
  let ((negative, magnitude), reader) ← reader.readIntBody code mask start
  let number := widened negative magnitude
  match target with
  | .i64 =>
      match tryI64 number with
      | some value => .ok (.i64 value, reader)
      | none => .error (.integerOutOfRange start number "i64")
  | .u64 =>
      match tryU64 number with
      | some value => .ok (.u64 value, reader)
      | none => .error (.integerOutOfRange start number "u64")
  | other => .error (.typeMismatch start other.name "integer")

/-- Read a vector's elements. -/
def readVector (mask : UInt8) :
    Nat → TupleReader → Except TupleError (List F32 × TupleReader)
  | 0, reader => .ok ([], reader)
  | count + 1, reader => do
      let (raw, reader) ← reader.take 4 mask
      let (elements, reader) ← readVector mask count reader
      let element := orderedToFloat (BitVec.ofNat 32 (fromBeBytes raw))
      return (element :: elements, reader)

/-- The sixteen bytes of a UUID, padded with zeros as the array they fill. -/
def uuidFromBytes (raw : Bytes) : Uuid where
  bytes := (raw ++ List.replicate 16 0).take 16
  sixteen := by simp

/--
Decode a non-null, non-integer body whose code has already been read.  What
follows an array's code is read by `array`.
-/
def readBodyWith (array : TupleReader → Except TupleError (Value × TupleReader))
    (reader : TupleReader)
    (code mask : UInt8)
    (start : Nat) :
    Except TupleError (Value × TupleReader) :=
  if code = Codes.FALSE then
    .ok (.bool false, reader)
  else if code = Codes.TRUE then
    .ok (.bool true, reader)
  else if code = Codes.BYTES then do
    let (raw, reader) ← reader.readEscaped mask
    return (.bytes raw, reader)
  else if code = Codes.STR then do
    let (raw, reader) ← reader.readEscaped mask
    match String.fromUTF8? ⟨⟨raw⟩⟩ with
    | some text => .ok (.str text, reader)
    | none => .error (.invalidUtf8 start)
  else if code = Codes.DECIMAL then do
    let (code, reader) ← reader.byte mask
    if !Codes.isInt code then
      .error (.unknownTypeCode start code)
    else
      let ((negative, magnitude), reader) ← reader.readIntBody code mask start
      match tryI64 (widened negative magnitude) with
      | some units => .ok (.decimal units, reader)
      | none => .error (.unknownTypeCode start code)
  else if code = Codes.F64 then do
    let (raw, reader) ← reader.take 8 mask
    return (.f64 (orderedToFloat (BitVec.ofNat 64 (fromBeBytes raw))), reader)
  else if code = Codes.UUID then do
    let (raw, reader) ← reader.take 16 mask
    return (.uuid (uuidFromBytes raw), reader)
  else if code = Codes.VECTOR then do
    let (count, reader) ← reader.takeU32 mask
    let (elements, reader) ← readVector mask count reader
    return (.vector elements, reader)
  else if code = Codes.ARRAY then
    array reader
  else
    .error (.unknownTypeCode start code)

/-- `readDynamicMasked` with the reader of an array's body left open. -/
def readDynamicWith (array : TupleReader → Except TupleError (Value × TupleReader))
    (reader : TupleReader)
    (mask : UInt8) :
    Except TupleError (Value × TupleReader) := do
  let start := reader.pos
  let (code, reader) ← reader.byte mask
  if code = Codes.NULL then
    .ok (.null, reader)
  else if Codes.isInt code then
    let ((negative, magnitude), reader) ← reader.readIntBody code mask start
    match tryI64 (widened negative magnitude) with
    | some value => .ok (.i64 value, reader)
    | none => .ok (.u64 (UInt64.ofNat magnitude), reader)
  else
    readBodyWith array reader code mask start

/--
Decode an array body: elements until the terminator.  An array inside an array
is refused before its body is reached, so the elements are read with an array
reader that is never used.  Every element takes at least one byte, so a fuel of
the remaining length is never exhausted.
-/
def readArrayElements (mask : UInt8) :
    Nat → TupleReader → Except TupleError (List Value × TupleReader)
  | 0, reader => .error (.truncated reader.pos 1)
  | fuel + 1, reader => do
      let at' := reader.pos
      let (code, after) ← reader.byte mask
      if code = Codes.NUL then
        .ok ([], after)
      else if code = Codes.ARRAY then
        .error (.unknownTypeCode at' code)
      else
        let (element, reader) ← readDynamicWith
          (fun _ => .error (.unknownTypeCode at' code)) reader mask
        let (elements, reader) ← readArrayElements mask fuel reader
        return (element :: elements, reader)

/-- Decode an array body. -/
def readArray (reader : TupleReader) (mask : UInt8) :
    Except TupleError (Value × TupleReader) := do
  let (elements, reader) ← readArrayElements mask (reader.remainder.length + 1) reader
  return (.array elements, reader)

/-- Decode a non-null, non-integer body whose code has already been read. -/
def readBody (reader : TupleReader) (code mask : UInt8) (start : Nat) :
    Except TupleError (Value × TupleReader) :=
  readBodyWith (fun reader => reader.readArray mask) reader code mask start

/-- Decode the next element using only its type code. -/
def readDynamicMasked (reader : TupleReader) (mask : UInt8) :
    Except TupleError (Value × TupleReader) :=
  readDynamicWith (fun reader => reader.readArray mask) reader mask

/-- Decode the next element using only its type code. -/
def readDynamic (reader : TupleReader) (direction : Direction) :
    Except TupleError (Value × TupleReader) :=
  reader.readDynamicMasked direction.mask

/-- The name a type code is reported under. -/
def codeName (code : UInt8) : Option ValueType :=
  if code = Codes.FALSE ∨ code = Codes.TRUE then
    some .bool
  else if code = Codes.BYTES then
    some .bytes
  else if code = Codes.STR then
    some .str
  else if code = Codes.F64 then
    some .f64
  else if code = Codes.DECIMAL then
    some .decimal
  else if code = Codes.UUID then
    some .uuid
  else if code = Codes.VECTOR then
    some .vector
  else if code = Codes.ARRAY then
    some .array
  else
    none

/-- Decode the next element, which must be null or of the expected type. -/
def read (reader : TupleReader) (expected : ValueType) (direction : Direction) :
    Except TupleError (Value × TupleReader) := do
  let mask := direction.mask
  let start := reader.pos
  let (code, reader) ← reader.byte mask
  if code = Codes.NULL then
    .ok (.null, reader)
  else if Codes.isInt code then
    reader.readIntAs code mask start expected
  else
    match codeName code with
    | none => .error (.unknownTypeCode start code)
    | some found =>
        if found ≠ expected then
          .error (.typeMismatch start expected.name found.name)
        else
          reader.readBody code mask start

/-- Move past some bytes, or report how many were missing. -/
def advance (reader : TupleReader) (count : Nat) : Except TupleError TupleReader :=
  if count ≤ reader.remainder.length then
    .ok (reader.skipped count)
  else
    .error (.truncated reader.pos (count - reader.remainder.length))

/-- Move past a zero-escaped byte string. -/
def skipEscapedFrom (mask : UInt8) (pos : Nat) : Bytes → Except TupleError TupleReader
  | [] => .error (.truncated pos 1)
  | first :: rest =>
      if first ^^^ mask ≠ Codes.NUL then
        skipEscapedFrom mask (pos + 1) rest
      else
        match rest with
        | [] => .error (.truncated (pos + 1) 1)
        | second :: rest =>
            if second ^^^ mask = Codes.NUL then
              .ok ⟨pos + 2, rest⟩
            else if second ^^^ mask = Codes.ESCAPE then
              skipEscapedFrom mask (pos + 2) rest
            else
              .error (.malformedEscape pos)

/-- `skip` with the skipping of an array's elements left open. -/
def skipWith (array : TupleReader → Except TupleError TupleReader)
    (reader : TupleReader)
    (mask : UInt8) :
    Except TupleError TupleReader := do
  let start := reader.pos
  let (code, reader) ← reader.byte mask
  if code = Codes.NULL ∨ code = Codes.FALSE ∨ code = Codes.TRUE then
    .ok reader
  else if Codes.isInt code then
    reader.advance (intLen code)
  else if code = Codes.BYTES ∨ code = Codes.STR then
    skipEscapedFrom mask reader.pos reader.remainder
  else if code = Codes.F64 then
    reader.advance 8
  else if code = Codes.DECIMAL then
    let (inner, reader) ← reader.byte mask
    if !Codes.isInt inner then
      .error (.unknownTypeCode start inner)
    else
      reader.advance (intLen inner)
  else if code = Codes.UUID then
    reader.advance 16
  else if code = Codes.VECTOR then
    let (count, reader) ← reader.takeU32 mask
    reader.advance (count * 4)
  else if code = Codes.ARRAY then
    array reader
  else
    .error (.unknownTypeCode start code)

/-- Skip an array's elements up to the terminator. -/
def skipArrayElements (mask : UInt8) : Nat → TupleReader → Except TupleError TupleReader
  | 0, reader => .error (.truncated reader.pos 1)
  | fuel + 1, reader => do
      let at' := reader.pos
      let (inner, after) ← reader.byte mask
      if inner = Codes.NUL then
        .ok after
      else if inner = Codes.ARRAY then
        .error (.unknownTypeCode at' inner)
      else
        let reader ← skipWith (fun _ => .error (.unknownTypeCode at' inner)) reader mask
        skipArrayElements mask fuel reader

/-- Advance past the next element without materialising it. -/
def skip (reader : TupleReader) (direction : Direction) :
    Except TupleError TupleReader :=
  skipWith (fun reader =>
      skipArrayElements direction.mask (reader.remainder.length + 1) reader)
    reader direction.mask

/-- Read one element per type, with per-element directions. -/
def readAll : List ValueType → List Direction → TupleReader →
      Except TupleError (List Value × TupleReader)
  | [], _, reader => .ok ([], reader)
  | type :: types, directions, reader => do
      let (value, reader) ← reader.read type (directions.headD .asc)
      let (values, reader) ← readAll types directions.tail reader
      return (value :: values, reader)

end TupleReader

/--
Decode one element per type with per-element directions, returning the unread
remainder.
-/
def decodePrefixWith (buf : Bytes) (types : List ValueType)
    (directions : List Direction) :
    Except TupleError (List Value × Bytes) := do
  let (values, reader) ← TupleReader.readAll types directions (TupleReader.new buf)
  return (values, reader.remainder)

/-- Decode ascending elements and return the unread remainder. -/
def decodePrefix (buf : Bytes) (types : List ValueType) :
    Except TupleError (List Value × Bytes) :=
  decodePrefixWith buf types []

/-- Decode ascending elements that take up the whole buffer. -/
def decode (buf : Bytes) (types : List ValueType) : Except TupleError (List Value) := do
  let (values, rest) ← decodePrefix buf types
  if rest.isEmpty then
    .ok values
  else
    .error (.trailingBytes values.length rest.length)

example :
    encodeWith [.i64 (-1), .str "a"] [.desc] =
      [0xEB, 0x01, 0x05, 0x61, 0x00, 0x00] := by
  decide

end SlateOrm
