import SlateOrm.FloatArith
import SlateOrm.Slices

namespace SlateOrm

/-!
# Predicates

The predicate language of filters, row policies, checks and partial indexes,
and its three-valued evaluation.  What the program takes from outside (Unicode
tables, the regular-expression engine, the text of a double, the time-zone
table) is a parameter: nothing here depends on what it answers.
-/

/-- A compiled regular expression. -/
structure Regex where
  isMatch : String → Bool
  replaceAll : String → String → String

/-- A time zone: its name and its transitions, ascending by instant. -/
structure Zone where
  name : String
  transitions : List (Int64 × Int32)

/-- What the program takes from its platform. -/
class Platform where
  toLowercase : String → String
  toUppercase : String → String
  isAlphanumeric : Char → Bool
  compile : String → Bool → Option Regex
  f64ToString : F64 → String
  zones : List Zone

/-- A platform of ASCII texts, without regular expressions or time zones. -/
@[reducible] def asciiPlatform : Platform where
  toLowercase := String.toLower
  toUppercase := String.toUpper
  isAlphanumeric := Char.isAlphanum
  compile _ _ := none
  f64ToString _ := ""
  zones := []

/-- The position of a column in its table. -/
abbrev Ordinal := Nat

/-- A row's values in table order. -/
structure Row where
  values : List Value
  deriving Repr, Inhabited

/-- Anything that values can be read from by ordinal. -/
abbrev Columns := Ordinal → Option Value

namespace Row

/-- The value of a column. -/
def get (row : Row) : Columns := fun ordinal => row.values[ordinal]?

/-- Rows are equal as their values are. -/
instance : BEq Row where
  beq first second := first.values == second.values

end Row

/-! ## Text -/

section Text

variable [Platform]

/-- The terms of a text: maximal runs of letters and digits, in lower case. -/
def tokenize (text : String) : List String :=
  let pieces := text.toList.splitOnP (fun char => !Platform.isAlphanumeric char)
  let terms := (pieces.filter (fun piece => !piece.isEmpty)).map
    (fun piece => Platform.toLowercase (String.ofList piece))
  dedup (terms.insertionSort
    (fun first second => compare (utf8 first) (utf8 second) ≠ .gt))

end Text

/-- The loop of `likeMatches`, with the last `%` seen to come back to. -/
def likeLoop (text pattern : List Char) : Nat → Nat → Nat → Option Nat → Nat → Bool
  | 0, _, _, _, _ => false
  | fuel + 1, t, p, starP, starT =>
      if text.length ≤ t then
        (pattern.drop p).all (· == '%')
      else
        let retry : Bool :=
          match starP with
          | some star =>
              likeLoop text pattern fuel (starT + 1) (star + 1) starP (starT + 1)
          | none => false
        match pattern[p]? with
        | none => retry
        | some '%' => likeLoop text pattern fuel t (p + 1) (some p) t
        | some '_' => likeLoop text pattern fuel (t + 1) (p + 1) starP starT
        | some char =>
            let literal := if char = '\\' then (pattern[p + 1]?).getD '\\' else char
            let width := if char = '\\' then 2 else 1
            if text[t]? = some literal then
              likeLoop text pattern fuel (t + 1) (p + width) starP starT
            else
              retry

/--
Whether a text matches a `LIKE` pattern.  The loop starts over at most once for
each position of the text, and takes at most one step for each character of
the text and the pattern in between.
-/
def likeMatches (text pattern : String) : Bool :=
  let text := text.toList
  let pattern := pattern.toList
  likeLoop text pattern
    ((text.length + 2) * (text.length + pattern.length + 2)) 0 0 none 0

/-- The characters every match of a pattern starts with. -/
def likePrefixChars : List Char → List Char
  | [] => []
  | '%' :: _ => []
  | '_' :: _ => []
  | ['\\'] => ['\\']
  | '\\' :: escaped :: rest => escaped :: likePrefixChars rest
  | char :: rest => char :: likePrefixChars rest

/-- The text every match of a pattern starts with, if there is any. -/
def likePrefix (pattern : String) : Option String :=
  match likePrefixChars pattern.toList with
  | [] => none
  | chars => some (String.ofList chars)

/-! ## Expressions -/

/-- The three truth values. -/
inductive Truth where
  | true
  | false
  | unknown
  deriving DecidableEq, Repr

/-- Only a true predicate admits a row. -/
def Truth.admits : Truth → Bool
  | .true => Bool.true
  | _ => Bool.false

def Truth.negate : Truth → Truth
  | .true => .false
  | .false => .true
  | .unknown => .unknown

def Truth.from : Bool → Truth
  | Bool.true => .true
  | Bool.false => .false

/-- Comparison operators. -/
inductive CmpOp where
  | eq
  | ne
  | lt
  | le
  | gt
  | ge
  deriving DecidableEq, Repr

/-- The operator with its sides exchanged. -/
def CmpOp.mirrored : CmpOp → CmpOp
  | .eq => .eq
  | .ne => .ne
  | .lt => .gt
  | .le => .ge
  | .gt => .lt
  | .ge => .le

def CmpOp.apply (operator : CmpOp) (ordering : Ordering) : Bool :=
  match operator with
  | .eq => ordering == .eq
  | .ne => ordering != .eq
  | .lt => ordering == .lt
  | .le => ordering != .gt
  | .gt => ordering == .gt
  | .ge => ordering != .lt

/-- A list at least this long is looked up by binary search. -/
def IN_LOOKUP_THRESHOLD : Nat := 16

/-- A predicate over a row. -/
inductive Expr where
  | true
  | false
  | compare (column : Ordinal) (op : CmpOp) (value : Value)
  | compareColumns (left : Ordinal) (op : CmpOp) (right : Ordinal)
  | isNull (column : Ordinal) (negated : Bool)
  | like (column : Ordinal) (pattern : String) (negated insensitive : Bool)
  | «matches» (column : Ordinal) (pattern : String) (negated insensitive : Bool)
  | contains (column : Ordinal) (terms : List String)
  | «in» (column : Ordinal) (values : List Value)
  | inSorted (column : Ordinal) (values : List Value) (anyNull : Bool)
  | and (parts : List Expr)
  | or (parts : List Expr)
  | not (inner : Expr)
  deriving Repr, Inhabited

section Evaluate

variable [Platform]

/-- `column op value`. -/
def evaluateCompare (row : Columns) (column : Ordinal) (op : CmpOp)
    (value : Value) : Truth :=
  match row column with
  | none => .unknown
  | some actual =>
      if actual.isNull || value.isNull then
        .unknown
      else
        Truth.from (op.apply (actual.cmp value))

/-- `left op right`, both columns. -/
def evaluateCompareColumns (row : Columns) (left : Ordinal) (op : CmpOp)
    (right : Ordinal) : Truth :=
  match row left, row right with
  | some first, some second =>
      if first.isNull || second.isNull then
        .unknown
      else
        Truth.from (op.apply (first.cmp second))
  | _, _ => .unknown

/-- `column LIKE pattern`. -/
def evaluateLike (row : Columns) (column : Ordinal) (pattern : String)
    (negated insensitive : Bool) : Truth :=
  match row column with
  | some (.str text) =>
      let matched := if insensitive then
          likeMatches (Platform.toLowercase text) (Platform.toLowercase pattern)
        else
          likeMatches text pattern
      Truth.from (matched != negated)
  | _ => .unknown

/-- `column ~ pattern`; a pattern that does not compile matches nothing. -/
def evaluateMatches (row : Columns) (column : Ordinal) (pattern : String)
    (negated insensitive : Bool) : Truth :=
  match row column with
  | some (.str text) =>
      match Platform.compile pattern insensitive with
      | none => Truth.from negated
      | some regex => Truth.from (regex.isMatch text != negated)
  | _ => .unknown

/-- `contains(column, terms)`. -/
def evaluateContains (row : Columns) (column : Ordinal) (terms : List String) : Truth :=
  match row column with
  | some (.str text) =>
      if terms.isEmpty then
        .false
      else
        let held := tokenize text
        Truth.from (terms.all (fun term => held.contains term))
  | _ => .unknown

/-- `column IN (values)`. -/
def evaluateIn (row : Columns) (column : Ordinal) (values : List Value) : Truth :=
  match row column with
  | none => .unknown
  | some actual =>
      if actual.isNull then
        .unknown
      else if values.any (fun value => !value.isNull && value == actual) then
        .true
      else if values.any Value.isNull then
        .unknown
      else
        .false

/-- `column IN (values)`, looked up in the sorted values without nulls. -/
def evaluateInSorted (row : Columns) (column : Ordinal)
    (values : List Value) (anyNull : Bool) : Truth :=
  match row column with
  | none => .unknown
  | some actual =>
      if actual.isNull then
        .unknown
      else
        match binarySearchBy (fun value => value.cmp actual) values with
        | .ok _ => .true
        | .error _ => if anyNull then .unknown else .false

mutual

/-- The truth of a predicate for anything with columns. -/
def Expr.evaluateOver (row : Columns) : Expr → Truth
  | .true => .true
  | .false => .false
  | .compare column op value => evaluateCompare row column op value
  | .compareColumns left op right => evaluateCompareColumns row left op right
  | .isNull column negated => Truth.from (((row column).all Value.isNull) != negated)
  | .like column pattern negated insensitive =>
      evaluateLike row column pattern negated insensitive
  | .matches column pattern negated insensitive =>
      evaluateMatches row column pattern negated insensitive
  | .contains column terms => evaluateContains row column terms
  | .in column values => evaluateIn row column values
  | .inSorted column values anyNull => evaluateInSorted row column values anyNull
  | .and parts => Expr.evaluateAnd row .true parts
  | .or parts => Expr.evaluateOr row .false parts
  | .not inner => (inner.evaluateOver row).negate

/-- The loop of a conjunction, with the result so far. -/
def Expr.evaluateAnd (row : Columns) : Truth → List Expr → Truth
  | result, [] => result
  | result, part :: rest =>
      match part.evaluateOver row with
      | .false => .false
      | .unknown => Expr.evaluateAnd row .unknown rest
      | .true => Expr.evaluateAnd row result rest

/-- The loop of a disjunction, with the result so far. -/
def Expr.evaluateOr (row : Columns) : Truth → List Expr → Truth
  | result, [] => result
  | result, part :: rest =>
      match part.evaluateOver row with
      | .true => .true
      | .unknown => Expr.evaluateOr row .unknown rest
      | .false => Expr.evaluateOr row result rest

end

/-- The truth of a predicate for a row. -/
def Expr.evaluate (predicate : Expr) (row : Row) : Truth :=
  predicate.evaluateOver row.get

/-- Whether a predicate admits a row. -/
def Expr.admits (predicate : Expr) (row : Row) : Bool := (predicate.evaluate row).admits

/-- Whether a predicate admits anything with columns. -/
def Expr.admitsOver (predicate : Expr) (row : Columns) : Bool :=
  (predicate.evaluateOver row).admits

end Evaluate

/-! ## Building and rewriting -/

/-- `column = value`. -/
def Expr.eq (column : Ordinal) (value : Value) : Expr := .compare column .eq value

/-- The conjunction of two predicates, flattened. -/
def Expr.andThen : Expr → Expr → Expr
  | .false, _ => .false
  | _, .false => .false
  | .true, other => other
  | other, .true => other
  | .and first, .and second => .and (first ++ second)
  | .and parts, other => .and (parts ++ [other])
  | other, .and parts => .and (parts ++ [other])
  | first, second => .and [first, second]

/-- The conjunction of a list of predicates. -/
def Expr.all (parts : List Expr) : Expr := parts.foldl Expr.andThen .true

mutual

/-- The conjuncts of a predicate. -/
def Expr.conjuncts : Expr → List Expr
  | .true => []
  | .and parts => Expr.conjunctsList parts
  | other => [other]

def Expr.conjunctsList : List Expr → List Expr
  | [] => []
  | part :: rest => part.conjuncts ++ Expr.conjunctsList rest

end

mutual

/-- The predicate with its long lists prepared for lookup. -/
def Expr.prepared : Expr → Expr
  | .in column values =>
      if IN_LOOKUP_THRESHOLD ≤ values.length then
        let sorted := (values.filter (fun value => !value.isNull)).insertionSort
          (fun first second => first.cmp second ≠ .gt)
        .inSorted column (dedup sorted) (values.any Value.isNull)
      else
        .in column values
  | .and parts => .and (Expr.preparedList parts)
  | .or parts => .or (Expr.preparedList parts)
  | .not inner => .not inner.prepared
  | other => other

def Expr.preparedList : List Expr → List Expr
  | [] => []
  | part :: rest => part.prepared :: Expr.preparedList rest

end

mutual

/-- The columns a predicate reads. -/
def Expr.columns : Expr → List Ordinal
  | .true => []
  | .false => []
  | .compare column _ _ => [column]
  | .compareColumns left _ right => [left, right]
  | .isNull column _ => [column]
  | .like column _ _ _ => [column]
  | .matches column _ _ _ => [column]
  | .contains column _ => [column]
  | .in column _ => [column]
  | .inSorted column _ _ => [column]
  | .and parts => Expr.columnsList parts
  | .or parts => Expr.columnsList parts
  | .not inner => inner.columns

def Expr.columnsList : List Expr → List Ordinal
  | [] => []
  | part :: rest => part.columns ++ Expr.columnsList rest

end

mutual

/-- The first two columns compared with each other whose types differ. -/
def Expr.columnTypeConflict (types : Ordinal → Option ValueType) :
    Expr → Option (Ordinal × Ordinal)
  | .compareColumns left _ right =>
      match types left, types right with
      | some first, some second => if first ≠ second then some (left, right) else none
      | _, _ => none
  | .and parts => Expr.columnTypeConflictList types parts
  | .or parts => Expr.columnTypeConflictList types parts
  | .not inner => inner.columnTypeConflict types
  | _ => none

def Expr.columnTypeConflictList (types : Ordinal → Option ValueType) :
    List Expr → Option (Ordinal × Ordinal)
  | [] => none
  | part :: rest =>
      (part.columnTypeConflict types).or (Expr.columnTypeConflictList types rest)

end

mutual

/-- The length of the longest list a predicate holds. -/
def Expr.widestInList : Expr → Nat
  | .in _ values => values.length
  | .inSorted _ values _ => values.length
  | .and parts => Expr.widestInLists parts
  | .or parts => Expr.widestInLists parts
  | .not inner => inner.widestInList
  | _ => 0

def Expr.widestInLists : List Expr → Nat
  | [] => 0
  | part :: rest => max part.widestInList (Expr.widestInLists rest)

end

end SlateOrm
