import SlateOrm.Expr

namespace SlateOrm

/-!
# Computed values

The scalar language of computed columns, assignments and expression indexes.
Integer arithmetic is checked and answers with a null when it overflows; calendar
arithmetic is done on days since the epoch.
-/

/-! ## Distances -/

/-- How two vectors are compared. -/
inductive Metric where
  | l2
  | l2Squared
  | cosine
  | negativeInnerProduct
  deriving DecidableEq, Repr

/-- The terms of a squared distance. -/
def squaredDifferences (first second : List F32) : List F64 := first.zipWith (fun x y =>
    let difference := F64.sub (F64.ofF32 x) (F64.ofF32 y)
    F64.mul difference difference) second

/-- Running sums of `x * y`, `x * x` and `y * y`. -/
def cosineSums (first second : List F32) : F64 × F64 × F64 :=
  (first.zip second).foldl (fun sums pair =>
      let x := F64.ofF32 pair.1
      let y := F64.ofF32 pair.2
      (F64.add sums.1 (F64.mul x y), F64.add sums.2.1 (F64.mul x x),
        F64.add sums.2.2 (F64.mul y y)))
    (F64.positiveZero, F64.positiveZero, F64.positiveZero)

/-- The distance between two vectors of one length. -/
def Metric.between (metric : Metric) (first second : List F32) : Option F64 :=
  if first.length ≠ second.length then
    none
  else
    match metric with
    | .l2 => some (F64.sqrt (F64.sum (squaredDifferences first second)))
    | .l2Squared => some (F64.sum (squaredDifferences first second))
    | .negativeInnerProduct =>
        some (F64.neg (F64.sum (first.zipWith
          (fun x y => F64.mul (F64.ofF32 x) (F64.ofF32 y)) second)))
    | .cosine =>
        let (dot, left, right) := cosineSums first second
        let magnitude := F64.sqrt (F64.mul left right)
        if F64.isPositive magnitude then
          some (F64.sub F64.one (F64.div dot magnitude))
        else
          none

/-! ## The calendar -/

inductive CalendarPart where
  | year
  | month
  | dayOfMonth
  | dayOfWeek
  deriving DecidableEq, Repr

inductive CalendarUnit where
  | month
  | year
  deriving DecidableEq, Repr

inductive TimeUnit where
  | second
  | minute
  | hour
  | day
  deriving DecidableEq, Repr

/-- How many seconds a unit has. -/
def TimeUnit.seconds : TimeUnit → Int
  | .second => 1
  | .minute => 60
  | .hour => 3600
  | .day => 86400

/-- How many of a unit the next larger one has. -/
def TimeUnit.within : TimeUnit → Int
  | .second => 60
  | .minute => 60
  | .hour => 24
  | .day => 2 ^ 63 - 1

/-- The year, month and day of a day number. -/
def civilFromDays (days : Int) : Int × Int × Int :=
  let shifted := days + 719468
  let era := (if 0 ≤ shifted then shifted else shifted - 146096).tdiv 146097
  let dayOfEra := shifted - era * 146097
  let yearOfEra := (dayOfEra - dayOfEra.tdiv 1460 + dayOfEra.tdiv 36524 -
      dayOfEra.tdiv 146096).tdiv 365
  let year := yearOfEra + era * 400
  let dayOfYear := dayOfEra - (365 * yearOfEra + yearOfEra.tdiv 4 - yearOfEra.tdiv 100)
  let marchMonth := (5 * dayOfYear + 2).tdiv 153
  let day := dayOfYear - (153 * marchMonth + 2).tdiv 5 + 1
  let month := if marchMonth < 10 then marchMonth + 3 else marchMonth - 9
  (if month ≤ 2 then year + 1 else year, month, day)

/-- The day number of a year, month and day. -/
def daysFromCivil (year month day : Int) : Int :=
  let year := if month ≤ 2 then year - 1 else year
  let era := (if 0 ≤ year then year else year - 399).tdiv 400
  let yearOfEra := year - era * 400
  let marchMonth := if 2 < month then month - 3 else month + 9
  let dayOfYear := (153 * marchMonth + 2).tdiv 5 + day - 1
  let dayOfEra := yearOfEra * 365 + yearOfEra.tdiv 4 - yearOfEra.tdiv 100 + dayOfYear
  era * 146097 + dayOfEra - 719468

example : civilFromDays (-719469) = (0, 2, 29) := by
  decide

example : daysFromCivil 2000 2 29 = 11016 := by
  decide

/-- One part of the date that a number of seconds falls on. -/
def calendarPart (part : CalendarPart) (seconds : Int) : Int :=
  let days := seconds / 86400
  let (year, month, day) := civilFromDays days
  match part with
  | .year => year
  | .month => month
  | .dayOfMonth => day
  | .dayOfWeek => (days + 4) % 7

/-- The start of the month or year that a number of seconds falls in. -/
def calendarTrunc (unit : CalendarUnit) (seconds : Int) : Int :=
  let (year, month, _) := civilFromDays (seconds / 86400)
  let month :=
    match unit with
    | .month => month
    | .year => 1
  daysFromCivil year month 1 * 86400

/-! ## Arithmetic -/

/-- A number as arithmetic sees it. -/
inductive Number where
  | int (value : Int64)
  | real (value : F64)
  | units (value : Int64)

/-- The number a value is, if it is one. -/
def number : Value → Option Number
  | .i64 value => some (.int value)
  | .u64 value => (TupleReader.tryI64 value.toNat).map .int
  | .f64 value => some (.real value)
  | .decimal units => some (.units units)
  | _ => none

/-- The four arithmetic operations. -/
inductive Op where
  | add
  | sub
  | mul
  | div
  deriving DecidableEq, Repr

/-- The checked operation on 64-bit integers. -/
def Op.checked (op : Op) (first second : Int64) : Option Int64 :=
  match op with
  | .add => TupleReader.tryI64 (first.toInt + second.toInt)
  | .sub => TupleReader.tryI64 (first.toInt - second.toInt)
  | .mul => TupleReader.tryI64 (first.toInt * second.toInt)
  | .div =>
      if second.toInt = 0 then
        none
      else
        TupleReader.tryI64 (first.toInt.tdiv second.toInt)

/-- The operation on doubles; a division by zero is a NaN. -/
def Op.real (op : Op) (first second : F64) : F64 :=
  match op with
  | .add => F64.add first second
  | .sub => F64.sub first second
  | .mul => F64.mul first second
  | .div => if F64.isZero second then F64.nan else F64.div first second

/-- The operation where one side counts a decimal's units. -/
def decimalOp (op : Op) (first second : Number) : Value :=
  match op, first, second with
  | .add, .units x, .units y => ((Op.add.checked x y).map .decimal).getD .null
  | .sub, .units x, .units y => ((Op.sub.checked x y).map .decimal).getD .null
  | .mul, .units x, .int y => ((Op.mul.checked x y).map .decimal).getD .null
  | .mul, .int x, .units y => ((Op.mul.checked x y).map .decimal).getD .null
  | .div, .units x, .int y => ((Op.div.checked x y).map .decimal).getD .null
  | _, _, _ => .null

def Number.toF64 : Number → F64
  | .int value => F64.ofInt value.toInt
  | .real value => value
  | .units value => F64.ofInt value.toInt

/-- An arithmetic operation on numbers. -/
def arithmeticOf (op : Op) : Number → Number → Value
  | .int x, .int y => ((op.checked x y).map .i64).getD .null
  | .units x, y => decimalOp op (.units x) y
  | x, .units y => decimalOp op x (.units y)
  | x, y => .f64 (op.real x.toF64 y.toF64)

/-- An arithmetic operation on values; anything but a number gives a null. -/
def arithmetic (op : Op) (first second : Value) : Value :=
  match number first, number second with
  | some x, some y => arithmeticOf op x y
  | _, _ => .null

/-! ## Text -/

/-- The hexadecimal digits of a byte. -/
def hexByte (byte : UInt8) : List Char :=
  [Nat.digitChar (byte.toNat / 16), Nat.digitChar (byte.toNat % 16)]

/-- A UUID in its hyphenated form. -/
def uuidToString (value : Uuid) : String :=
  let group (start count : Nat) := ((value.bytes.drop start).take count).flatMap hexByte
  String.ofList
    (group 0 4 ++ '-' :: group 4 2 ++ '-' :: group 6 2 ++ '-' :: group 8 2 ++
      '-' :: group 10 6)

/-- The template of the regular-expression engine for a SQL replacement. -/
def backreferencesChars : List Char → List Char
  | [] => []
  | '\\' :: char :: rest =>
      if char.isDigit then
        '$' :: char :: backreferencesChars rest
      else if char = '\\' then
        '\\' :: backreferencesChars rest
      else if char = '$' then
        '\\' :: '$' :: '$' :: backreferencesChars rest
      else
        '\\' :: char :: backreferencesChars rest
  | ['\\'] => ['\\']
  | '$' :: rest => '$' :: '$' :: backreferencesChars rest
  | char :: rest => char :: backreferencesChars rest

/-- The template of the regular-expression engine for a SQL replacement. -/
def backreferences (replacement : String) : String :=
  String.ofList (backreferencesChars replacement.toList)

section Text

variable [Platform]

/-- A double as text; a NaN's payload is not shown. -/
def f64Text (value : F64) : String :=
  if F64.isNan value then "NaN" else Platform.f64ToString value

/-- A value as a part of a concatenation. -/
def concatText : Value → Option String
  | .str text => some text
  | .i64 value => some (toString value.toInt)
  | .u64 value => some (toString value.toNat)
  | .f64 value => some (f64Text value)
  | .bool value => some (if value then "true" else "false")
  | .uuid value => some (uuidToString value)
  | _ => none

/-- The offset of a zone at an instant, in seconds. -/
def zoneOffset (name : String) (instant : Int64) : Option Int32 :=
  match binarySearchBy
      (fun zone : Zone => compare (utf8 zone.name) (utf8 name))
      Platform.zones with
  | .error _ => none
  | .ok found =>
      match (Platform.zones)[found]? with
      | none => none
      | some zone =>
          let past :=
            match binarySearchBy
                (fun transition : Int64 × Int32 =>
                  if transition.1 ≤ instant then .lt else .gt)
                zone.transitions with
            | .ok found => found
            | .error found => found
          (zone.transitions[past - 1]?).map Prod.snd

end Text

/-- The sum of two integers, clamped to 64 bits. -/
def saturatingAdd (first : Int64) (second : Int) : Int64 :=
  Int64.ofInt (max (-2 ^ 63) (min (2 ^ 63 - 1) (first.toInt + second)))

/-! ## Scalars -/

/-- An expression that computes a value from a row. -/
inductive Scalar where
  | column (ordinal : Ordinal)
  | literal (value : Value)
  | add (left right : Scalar)
  | sub (left right : Scalar)
  | mul (left right : Scalar)
  | div (left right : Scalar)
  | length (inner : Scalar)
  | concat (parts : List Scalar)
  | lower (inner : Scalar)
  | upper (inner : Scalar)
  | extract (unit : TimeUnit) (value : Scalar)
  | round (value : Scalar)
  | calendarPart (part : CalendarPart) (value : Scalar)
  | calendarTrunc (unit : CalendarUnit) (value : Scalar)
  | zoneShift (zone : String) (value : Scalar)
  | dateTrunc (unit : TimeUnit) (value : Scalar)
  | case (branches : List (Expr × Scalar)) (otherwise : Scalar)
  | coalesce (parts : List Scalar)
  | distance (left right : Scalar) (metric : Metric)
  | regexpReplace (value : Scalar) (pattern replacement : String)
  deriving Repr, Inhabited

/-- The value of a function of a timestamp, null for anything else. -/
def ofSeconds (function : Int64 → Value) (value : Value) : Value :=
  match number value with
  | some (.int seconds) => function seconds
  | _ => .null

section Evaluate

variable [Platform]

/-- The number of characters of a text or bytes of a byte string. -/
def lengthOf : Value → Value
  | .str text => .i64 (Int64.ofNat text.length)
  | .bytes bytes => .i64 (Int64.ofNat bytes.length)
  | _ => .null

/-- A text in lower case. -/
def lowerOf : Value → Value
  | .str text => .str (Platform.toLowercase text)
  | _ => .null

/-- A text in upper case. -/
def upperOf : Value → Value
  | .str text => .str (Platform.toUppercase text)
  | _ => .null

/-- A double rounded half away from zero; a NaN has no nearest integer. -/
def roundReal (value : F64) : Value :=
  if F64.isNan value then .null else .i64 (F64.roundToI64 value)

/-- A number rounded half away from zero. -/
def roundOf (value : Value) : Value :=
  match number value with
  | some (.int value) => .i64 value
  | some (.real value) => roundReal value
  | _ => .null

/-- A timestamp shifted by the offset of a zone. -/
def zoneShiftOf (zone : String) (seconds : Int64) : Value :=
  match zoneOffset zone seconds with
  | some offset => .i64 (saturatingAdd seconds offset.toInt)
  | none => .null

/-- The distance between two vector values. -/
def distanceOf (metric : Metric) : Value → Value → Value
  | .vector first, .vector second => ((metric.between first second).map .f64).getD .null
  | _, _ => .null

/-- A text with every match of a pattern replaced. -/
def regexpReplaceOf (pattern replacement : String) : Value → Value
  | .str text =>
      match Platform.compile pattern Bool.false with
      | some regex => .str (regex.replaceAll text (backreferences replacement))
      | none => .null
  | _ => .null

mutual

/-- The value of a scalar for anything with columns. -/
def Scalar.evaluate (row : Columns) : Scalar → Value
  | .column ordinal => (row ordinal).getD .null
  | .literal value => value
  | .add left right => arithmetic .add (left.evaluate row) (right.evaluate row)
  | .sub left right => arithmetic .sub (left.evaluate row) (right.evaluate row)
  | .mul left right => arithmetic .mul (left.evaluate row) (right.evaluate row)
  | .div left right => arithmetic .div (left.evaluate row) (right.evaluate row)
  | .length inner => lengthOf (inner.evaluate row)
  | .concat parts => Scalar.evaluateConcat row "" parts
  | .lower inner => lowerOf (inner.evaluate row)
  | .upper inner => upperOf (inner.evaluate row)
  | .extract unit value =>
      ofSeconds (fun seconds =>
        .i64 (Int64.ofInt (seconds.toInt / unit.seconds % unit.within)))
        (value.evaluate row)
  | .round value => roundOf (value.evaluate row)
  | .calendarPart part value =>
      ofSeconds (fun seconds =>
        .i64 (Int64.ofInt (SlateOrm.calendarPart part seconds.toInt)))
        (value.evaluate row)
  | .calendarTrunc unit value =>
      ofSeconds (fun seconds =>
        .i64 (Int64.ofInt (SlateOrm.calendarTrunc unit seconds.toInt)))
        (value.evaluate row)
  | .zoneShift zone value => ofSeconds (zoneShiftOf zone) (value.evaluate row)
  | .dateTrunc unit value =>
      ofSeconds (fun seconds =>
        .i64 (Int64.ofInt (seconds.toInt / unit.seconds * unit.seconds)))
        (value.evaluate row)
  | .case branches otherwise =>
      match Scalar.evaluateCase row branches with
      | some value => value
      | none => otherwise.evaluate row
  | .coalesce parts => Scalar.evaluateCoalesce row parts
  | .distance left right metric =>
      distanceOf metric (left.evaluate row) (right.evaluate row)
  | .regexpReplace value pattern replacement =>
      regexpReplaceOf pattern replacement (value.evaluate row)

/-- The loop of a concatenation, with the text so far. -/
def Scalar.evaluateConcat (row : Columns) : String → List Scalar → Value
  | out, [] => .str out
  | out, part :: rest =>
      match concatText (part.evaluate row) with
      | some text => Scalar.evaluateConcat row (out ++ text) rest
      | none => .null

/-- The first branch of a case that admits the row. -/
def Scalar.evaluateCase (row : Columns) : List (Expr × Scalar) → Option Value
  | [] => none
  | (condition, result) :: rest =>
      if condition.admitsOver row then
        some (result.evaluate row)
      else
        Scalar.evaluateCase row rest

/-- The first part that is not null. -/
def Scalar.evaluateCoalesce (row : Columns) : List Scalar → Value
  | [] => .null
  | part :: rest =>
      let value := part.evaluate row
      if value.isNull then Scalar.evaluateCoalesce row rest else value

end

end Evaluate

mutual

/-- The columns a scalar reads. -/
def Scalar.columns : Scalar → List Ordinal
  | .column ordinal => [ordinal]
  | .literal _ => []
  | .add left right => left.columns ++ right.columns
  | .sub left right => left.columns ++ right.columns
  | .mul left right => left.columns ++ right.columns
  | .div left right => left.columns ++ right.columns
  | .length inner => inner.columns
  | .concat parts => Scalar.columnsList parts
  | .lower inner => inner.columns
  | .upper inner => inner.columns
  | .extract _ value => value.columns
  | .round value => value.columns
  | .calendarPart _ value => value.columns
  | .calendarTrunc _ value => value.columns
  | .zoneShift _ value => value.columns
  | .dateTrunc _ value => value.columns
  | .case branches otherwise => Scalar.columnsBranches branches ++ otherwise.columns
  | .coalesce parts => Scalar.columnsList parts
  | .distance left right _ => left.columns ++ right.columns
  | .regexpReplace value _ _ => value.columns

def Scalar.columnsList : List Scalar → List Ordinal
  | [] => []
  | part :: rest => part.columns ++ Scalar.columnsList rest

def Scalar.columnsBranches : List (Expr × Scalar) → List Ordinal
  | [] => []
  | (condition, result) :: rest =>
      condition.columns ++ result.columns ++ Scalar.columnsBranches rest

end

/-! ## Decimal scales -/

/-- Why an expression over decimals is refused. -/
structure ScaleRefusal where
  what : String
  why : String
  deriving DecidableEq, Repr

/-- The one scale among those given, unless two of them differ. -/
def agreeFrom (seen : Option UInt8) : List (Option UInt8) → Option (Option UInt8)
  | [] => some seen
  | none :: rest => agreeFrom seen rest
  | some scale :: rest =>
      match seen with
      | none => agreeFrom (some scale) rest
      | some first => if first = scale then agreeFrom seen rest else none

/-- The one scale among those given, unless two of them differ. -/
def agree (scales : List (Option UInt8)) : Option (Option UInt8) :=
  agreeFrom none scales

/-- Whether an arithmetic expression has a decimal in it. -/
def Scalar.mentionsDecimal (scaleOf : Ordinal → Option UInt8) : Scalar → Bool
  | .literal (.decimal _) => true
  | .column ordinal => (scaleOf ordinal).isSome
  | .add left right => left.mentionsDecimal scaleOf || right.mentionsDecimal scaleOf
  | .sub left right => left.mentionsDecimal scaleOf || right.mentionsDecimal scaleOf
  | .mul left right => left.mentionsDecimal scaleOf || right.mentionsDecimal scaleOf
  | .div left right => left.mentionsDecimal scaleOf || right.mentionsDecimal scaleOf
  | _ => false

/-- Whether an expression is a decimal literal, which takes any scale. -/
def Scalar.isAgnostic : Scalar → Bool
  | .literal (.decimal _) => true
  | _ => false

/-- The scale of a sum or difference of two parts. -/
def sumScale (first second : Option UInt8) (mentions agnostic : Bool) :
    Except ScaleRefusal (Option UInt8) :=
  match first, second with
  | none, none =>
      if mentions then
        .error {
          what := "adding or subtracting decimals with no column to take a scale from"
          why := "both sides are literals, so there is no column to say what unit they count; compare or combine against a decimal column" }
      else
        .ok none
  | some p, some q =>
      if p = q then
        .ok (some p)
      else
        .error {
          what := "adding or subtracting decimals at different scales"
          why := "one side is at scale " ++ toString p ++
            " and the other at scale " ++ toString q ++
            ", and the result would be a count of neither unit; rescale one of them in the caller, where the intended scale is known" }
  | some p, none | none, some p =>
      if agnostic then
        .ok (some p)
      else
        .error {
          what := "adding or subtracting a decimal and a number that is not one"
          why := "an integer or a float beside a decimal has no unit, so the sum would be a count of nothing; write the other side as a decimal, whose value is a count of the column's smallest unit" }

/-- Why two counts of units are not multiplied. -/
def literalUnits : ScaleRefusal where
  what := "multiplying two decimals"
  why := "one side is a decimal literal, which counts the other side's smallest unit rather than whole things — so this is units times units, at a scale nothing carries. Multiply by a whole number instead"

/-- The scale of a product of two parts. -/
def productScale (first second : Option UInt8) (firstMentions secondMentions : Bool) :
    Except ScaleRefusal (Option UInt8) :=
  match first, second with
  | some p, some q =>
      .error {
        what := "multiplying two decimals"
        why := "scale " ++ toString p ++ " times scale " ++ toString q ++
          " is scale " ++ toString (p.toNat + q.toNat) ++
          ", and nothing in a row, an index entry or the protocol carries a scale — so the answer would be a number " ++
          toString (10 ^ min q.toNat 18) ++
          " times wrong with no error anywhere. Multiply by a whole number instead" }
  | some p, none => if secondMentions then .error literalUnits else .ok (some p)
  | none, some p => if firstMentions then .error literalUnits else .ok (some p)
  | none, none =>
      if firstMentions || secondMentions then .error literalUnits else .ok none

/-- Why nothing is divided by a count of units. -/
def literalDivisor : ScaleRefusal where
  what := "dividing by a decimal"
  why := "the denominator is a decimal literal, which counts the numerator's smallest unit rather than whole parts — so the answer is a ratio, not a count of anything. Divide by a whole number instead"

/-- The scale of a quotient of two parts. -/
def quotientScale (first second : Option UInt8) (firstMentions secondMentions : Bool) :
    Except ScaleRefusal (Option UInt8) :=
  match first, second with
  | some p, some q =>
      .error {
        what := "dividing one decimal by another"
        why := "scale " ++ toString p ++ " over scale " ++ toString q ++
          " is a ratio, which is not a count of any unit; divide by a whole number instead" }
  | none, some _ =>
      .error {
        what := "dividing by a decimal"
        why := "a count of units in the denominator gives an answer in no unit at all; divide by a whole number instead" }
  | some p, none => if secondMentions then .error literalDivisor else .ok (some p)
  | none, none =>
      if firstMentions || secondMentions then
        .error literalDivisor
      else
        .ok none

/-- Refuse a decimal where a function takes none. -/
def noScale (refusal : ScaleRefusal) : Option UInt8 → Except ScaleRefusal (Option UInt8)
  | none => .ok none
  | some _ => .error refusal

def roundRefusal : ScaleRefusal where
  what := "rounding a decimal"
  why := "`round` yields an integer, and rounding a decimal to a whole number means dividing by its scale — which this expression cannot see. Divide by the scale explicitly if that is what was meant"

def textRefusal : ScaleRefusal where
  what := "a string function over a decimal"
  why := "a decimal is a number, not text"

def calendarRefusal : ScaleRefusal where
  what := "a calendar function over a decimal"
  why := "a timestamp here is seconds since the epoch, as an `i64`; a decimal is a count of a currency-like unit and is not one"

/-- The scale that a list of alternatives agrees on. -/
def agreedScale (what : String) (scales : List (Option UInt8)) :
    Except ScaleRefusal (Option UInt8) :=
  match agree scales with
  | some scale => .ok scale
  | none =>
      .error {
        what := what
        why := "the column it produces has one scale, so its meaning would vary by row" }

mutual

/-- The scale of the decimal an expression computes, if it computes one. -/
def Scalar.decimalScale (scaleOf : Ordinal → Option UInt8) :
    Scalar → Except ScaleRefusal (Option UInt8)
  | .column ordinal => .ok (scaleOf ordinal)
  | .literal _ => .ok none
  | .add left right => do
      let first ← left.decimalScale scaleOf
      let second ← right.decimalScale scaleOf
      sumScale first second
        (left.mentionsDecimal scaleOf || right.mentionsDecimal scaleOf)
        (left.isAgnostic || right.isAgnostic)
  | .sub left right => do
      let first ← left.decimalScale scaleOf
      let second ← right.decimalScale scaleOf
      sumScale first second
        (left.mentionsDecimal scaleOf || right.mentionsDecimal scaleOf)
        (left.isAgnostic || right.isAgnostic)
  | .mul left right => do
      let first ← left.decimalScale scaleOf
      let second ← right.decimalScale scaleOf
      productScale first second
        (left.mentionsDecimal scaleOf) (right.mentionsDecimal scaleOf)
  | .div left right => do
      let first ← left.decimalScale scaleOf
      let second ← right.decimalScale scaleOf
      quotientScale first second
        (left.mentionsDecimal scaleOf) (right.mentionsDecimal scaleOf)
  | .round value => do
      noScale roundRefusal (← value.decimalScale scaleOf)
  | .length inner => do
      noScale textRefusal (← inner.decimalScale scaleOf)
  | .lower inner => do
      noScale textRefusal (← inner.decimalScale scaleOf)
  | .upper inner => do
      noScale textRefusal (← inner.decimalScale scaleOf)
  | .extract _ value => do
      noScale calendarRefusal (← value.decimalScale scaleOf)
  | .calendarPart _ value => do
      noScale calendarRefusal (← value.decimalScale scaleOf)
  | .calendarTrunc _ value => do
      noScale calendarRefusal (← value.decimalScale scaleOf)
  | .dateTrunc _ value => do
      noScale calendarRefusal (← value.decimalScale scaleOf)
  | .zoneShift _ value => do
      noScale calendarRefusal (← value.decimalScale scaleOf)
  | .case branches otherwise => do
      let scales ← Scalar.branchScales scaleOf branches
      let last ← otherwise.decimalScale scaleOf
      agreedScale "a `case` whose branches are decimals at different scales"
        (scales ++ [last])
  | .coalesce parts => do
      let scales ← Scalar.partScales scaleOf parts
      agreedScale "a `coalesce` of decimals at different scales" scales
  | .concat _ => .ok none
  | .distance _ _ _ => .ok none
  | .regexpReplace _ _ _ => .ok none

def Scalar.partScales (scaleOf : Ordinal → Option UInt8) :
    List Scalar → Except ScaleRefusal (List (Option UInt8))
  | [] => .ok []
  | part :: rest => do
      let scale ← part.decimalScale scaleOf
      let scales ← Scalar.partScales scaleOf rest
      return scale :: scales

def Scalar.branchScales (scaleOf : Ordinal → Option UInt8) :
    List (Expr × Scalar) → Except ScaleRefusal (List (Option UInt8))
  | [] => .ok []
  | (_, result) :: rest => do
      let scale ← result.decimalScale scaleOf
      let scales ← Scalar.branchScales scaleOf rest
      return scale :: scales

end

/--
Check every computed expression, each over the columns and the expressions
computed before it.
-/
def checkScales (columns : Nat) (columnScale : Ordinal → Option UInt8) :
    List (Option UInt8) → List Scalar → Except ScaleRefusal Unit
  | _, [] => .ok ()
  | computed, expression :: rest => do
      let scaleOf (ordinal : Ordinal) := if ordinal < columns then
          columnScale ordinal
        else
          (computed[ordinal - columns]?).join
      let scale ← expression.decimalScale scaleOf
      checkScales columns columnScale (computed ++ [scale]) rest

end SlateOrm
