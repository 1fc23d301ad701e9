import Mathlib.Algebra.Ring.Int.Defs
import Mathlib.Algebra.Ring.Nat
import Mathlib.Data.List.Basic

namespace SlateOrm

/-!
# Tuple values

The values that keys and rows are made of, and the total order the tuple layer
gives them.  Doubles and vector elements are kept as bit patterns, because
their order and their encoding are both defined on the bits.
-/

/-- A byte string of the key-value store. -/
abbrev Bytes := List UInt8

/-- A 64-bit float, as its bit pattern. -/
abbrev F64 := BitVec 64

/-- A 32-bit float, as its bit pattern. -/
abbrev F32 := BitVec 32

namespace F64

/-- A NaN has all exponent bits set and a nonzero fraction. -/
def isNan (value : F64) : Bool :=
  0x7FF0000000000000#64 < value &&& 0x7FFFFFFFFFFFFFFF#64

/-- The NaN every other one is canonicalised to. -/
def nan : F64 := 0x7FF8000000000000#64

end F64

namespace F32

/-- A NaN has all exponent bits set and a nonzero fraction. -/
def isNan (value : F32) : Bool := 0x7F800000#32 < value &&& 0x7FFFFFFF#32

/-- The NaN every other one is canonicalised to. -/
def nan : F32 := 0x7FC00000#32

end F32

/--
The integer a bit pattern stands for in the total order of floats: the bits
themselves with the sign clear, and one below the negated magnitude with the
sign set.
-/
def totalKey {width : Nat} (bits : BitVec width) : Int := if bits.msb then
    -1 - ((bits.toNat : Int) - 2 ^ (width - 1))
  else
    bits.toNat

/-- The IEEE 754 total order on bit patterns. -/
def totalCmp {width : Nat} (first second : BitVec width) : Ordering :=
  compare (totalKey first) (totalKey second)

/-- The order of one float against another: a NaN is above every number. -/
def floatCmp {width : Nat} (isNan : BitVec width → Bool)
    (first second : BitVec width) : Ordering :=
  match isNan first, isNan second with
  | true, true => .eq
  | true, false => .gt
  | false, true => .lt
  | false, false => totalCmp first second

/-- A UUID is sixteen bytes. -/
structure Uuid where
  bytes : Bytes
  sixteen : bytes.length = 16
  deriving DecidableEq, Repr

/-- The values of the tuple layer. -/
inductive Value where
  | null
  | bool (value : Bool)
  | bytes (value : Bytes)
  | str (value : String)
  | i64 (value : Int64)
  | u64 (value : UInt64)
  | f64 (value : F64)
  | decimal (units : Int64)
  | uuid (value : Uuid)
  | vector (elements : List F32)
  | array (elements : List Value)
  deriving Repr, Inhabited

/-- The type tag of a value. -/
inductive ValueType where
  | bool
  | bytes
  | str
  | i64
  | u64
  | f64
  | decimal
  | uuid
  | vector
  | array
  deriving DecidableEq, Repr

/-- The UTF-8 bytes of a string. -/
def utf8 (text : String) : Bytes := text.toByteArray.data.toList

theorem utf8_injective
    {first second : String}
    (same : utf8 first = utf8 second) :
    first = second := by
  apply String.toByteArray_inj.mp
  exact ByteArray.ext (Array.toList_inj.mp same)

namespace Value

/-- The type tag of a value; a null has none. -/
def valueType : Value → Option ValueType
  | null => none
  | bool _ => some .bool
  | bytes _ => some .bytes
  | str _ => some .str
  | i64 _ => some .i64
  | u64 _ => some .u64
  | f64 _ => some .f64
  | decimal _ => some .decimal
  | uuid _ => some .uuid
  | vector _ => some .vector
  | array _ => some .array

/-- Whether a value is the null. -/
def isNull : Value → Bool
  | null => true
  | _ => false

/--
Rank of a value's class in the cross-type order.  Signed and unsigned integers
share one rank; a decimal has one of its own.
-/
def classRank : Value → Nat
  | null => 0
  | bool _ => 1
  | bytes _ => 2
  | str _ => 3
  | i64 _ => 4
  | u64 _ => 4
  | decimal _ => 5
  | f64 _ => 6
  | uuid _ => 7
  | vector _ => 8
  | array _ => 9

/-- Widen an integer so that signed and unsigned ones compare. -/
def asI128 : Value → Option Int
  | i64 value => some value.toInt
  | u64 value => some value.toNat
  | _ => none

/-- Vectors compare by length first and by elements after that. -/
def cmpVector (first second : List F32) : Ordering :=
  (compare first.length second.length).then
    (List.compareLex (floatCmp F32.isNan) first second)

mutual

/-- The total order on values. -/
def cmp (self other : Value) : Ordering :=
  match compare self.classRank other.classRank with
  | .lt => .lt
  | .gt => .gt
  | .eq =>
      match self, other with
      | null, null => .eq
      | bool first, bool second => compare first second
      | bytes first, bytes second => compare first second
      | str first, str second => compare (utf8 first) (utf8 second)
      | uuid first, uuid second => compare first.bytes second.bytes
      | vector first, vector second => cmpVector first second
      | array first, array second => cmpList first second
      | f64 first, f64 second => floatCmp F64.isNan first second
      | decimal first, decimal second => compare first.toInt second.toInt
      | first, second =>
          match first.asI128, second.asI128 with
          | some a, some b => compare a b
          | _, _ => .eq

/-- Lists of values compare element by element, a shorter one first. -/
def cmpList : List Value → List Value → Ordering
  | [], [] => .eq
  | [], _ :: _ => .lt
  | _ :: _, [] => .gt
  | first :: firsts, second :: seconds =>
      (cmp first second).then (cmpList firsts seconds)

end

/-- Equality of values is equality in their order. -/
instance : BEq Value where
  beq self other := cmp self other == .eq

example :
    cmp (i64 (-1)) (u64 18446744073709551615) = .lt := by
  decide

example :
    cmp (array [i64 1]) (array [i64 1, null]) = .lt := by
  decide

end Value

end SlateOrm
