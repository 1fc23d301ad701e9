import SlateOrm.Executor
import SlateOrm.KeyedFolds

namespace SlateOrm

/-!
# Aggregates and grouping

Rows are folded into groups by the encoding of their grouping columns, and in
each group into one accumulator for each aggregate.  The groups are filtered,
ordered and cut as a grouping says.
-/

/-! ## Aggregates -/

/-- A value computed over a set of rows. -/
inductive Aggregate where
  | count
  | countColumn (column : Ordinal)
  | min (column : Ordinal)
  | max (column : Ordinal)
  | sum (column : Ordinal)
  | avg (column : Ordinal)
  | countDistinct (column : Ordinal)
  deriving DecidableEq, Repr

/-- The column an aggregate reads, if any. -/
def Aggregate.column : Aggregate → Option Ordinal
  | .count => none
  | .countColumn column => some column
  | .min column => some column
  | .max column => some column
  | .sum column => some column
  | .avg column => some column
  | .countDistinct column => some column

/--
Running sums.  The count of the values and the sum of the integers are not
bounded here: as many rows as it takes to leave 64 and 128 bits are never read.
-/
structure Total where
  integer : Int := 0
  real : F64 := F64.positiveZero
  isReal : Bool := false
  isDecimal : Bool := false
  count : Nat := 0

namespace Total

/-- Fold in an integer, on whichever side the total is kept. -/
def addInteger (total : Total) (value : Int) : Total := if total.isReal then
    { total with real := F64.add total.real (F64.ofInt value) }
  else
    { total with integer := total.integer + value }

/-- Fold in a float, moving the total to the real side if it is not there. -/
def addReal (total : Total) (value : F64) : Total :=
  let total := if total.isReal then
      total
    else
      { total with
        real := F64.ofInt total.integer, integer := 0, isReal := true }
  { total with real := F64.add total.real value }

def isDecimalValue : Value → Bool
  | .decimal _ => true
  | _ => false

/-- Fold in a value, unless it does not add up with the others. -/
def add (total : Total) (value : Value) : Except KernelError Total :=
  let decimal := isDecimalValue value
  if 0 < total.count ∧ decimal ≠ total.isDecimal then
    .error (.notSummable (if decimal then "decimal" else value.typeName))
  else
    let counted (total : Total) : Total := { total with count := total.count + 1 }
    match value with
    | .i64 number => .ok (counted (total.addInteger number.toInt))
    | .u64 number => .ok (counted (total.addInteger number.toNat))
    | .decimal units =>
        .ok (counted
          (({ total with isDecimal := true } : Total).addInteger units.toInt))
    | .f64 number => .ok (counted (total.addReal number))
    | other => .error (.notSummable other.typeName)

/-- `i64::try_from`. -/
def toI64 (number : Int) : Option Int64 := if -2 ^ 63 ≤ number ∧ number < 2 ^ 63 then
    some (Int64.ofInt number)
  else
    none

def sum (total : Total) : Value := if total.count = 0 then
    .null
  else if total.isReal then
    .f64 total.real
  else if total.isDecimal then
    ((toI64 total.integer).map Value.decimal).getD .null
  else
    ((toI64 total.integer).map Value.i64).getD (.f64 (F64.ofInt total.integer))

def average (total : Total) : Value := if total.count = 0 then
    .null
  else
    let whole := if total.isReal then total.real else F64.ofInt total.integer
    .f64 (F64.div whole (F64.ofInt total.count))

end Total

inductive Accumulator where
  | count (rows : Nat)
  | extreme (best : Option Value) (wantMin : Bool)
  | total (total : Total)
  | distinct (seen : List Bytes)

/-- What an aggregate starts from. -/
def Aggregate.accumulator : Aggregate → Accumulator
  | .count => .count 0
  | .countColumn _ => .count 0
  | .min _ => .extreme none true
  | .max _ => .extreme none false
  | .sum _ => .total {}
  | .avg _ => .total {}
  | .countDistinct _ => .distinct []

/-- The value of a row that an aggregate reads, unless it is null. -/
def Aggregate.input (aggregate : Aggregate) (row : Row) : Option Value :=
  (aggregate.column.bind row.get).filter (fun value => !value.isNull)

/-- Fold one row into the accumulator of an aggregate. -/
def Accumulator.push (maxDistinct : Nat) (aggregate : Aggregate) (row : Row) :
    Accumulator → Except KernelError Accumulator
  | .count rows =>
      match aggregate.column with
      | none => .ok (.count (rows + 1))
      | some _ =>
          if (aggregate.input row).isSome then
            .ok (.count (rows + 1))
          else
            .ok (.count rows)
  | .extreme best wantMin =>
      match aggregate.input row with
      | none => .ok (.extreme best wantMin)
      | some value =>
          let replaces : Bool :=
            match best with
            | none => true
            | some current =>
                if wantMin then
                  value.cmp current == .lt
                else
                  value.cmp current == .gt
          .ok (.extreme (if replaces then some value else best) wantMin)
  | .total sums =>
      match aggregate.input row with
      | none => .ok (.total sums)
      | some value => (sums.add value).map Accumulator.total
  | .distinct seen =>
      match aggregate.input row with
      | none => .ok (.distinct seen)
      | some value =>
          let encoded := encode [value]
          if seen.contains encoded then
            .ok (.distinct seen)
          else if maxDistinct ≤ seen.length then
            .error (.tooManyDistinctValues maxDistinct)
          else
            .ok (.distinct (encoded :: seen))

/-- The result of an accumulator. -/
def Accumulator.finish (aggregate : Aggregate) : Accumulator → Value
  | .count rows => .u64 (UInt64.ofNat rows)
  | .extreme best _ => best.getD .null
  | .total sums =>
      match aggregate with
      | .avg _ => sums.average
      | _ => sums.sum
  | .distinct seen => .u64 (UInt64.ofNat seen.length)

/-- Aggregates being computed over a stream of rows. -/
structure Accumulators where
  specs : List Aggregate
  state : List Accumulator
  maxDistinct : Nat

namespace Accumulators

def withLimits (specs : List Aggregate) (limits : ExecutionLimits) : Accumulators where
  specs := specs
  state := specs.map Aggregate.accumulator
  maxDistinct := limits.maxDistinct

/-- Fold one row in. -/
def push (accumulators : Accumulators) (row : Row) :
    Except KernelError Accumulators := do
  let state ← (accumulators.specs.zip accumulators.state).mapM
    (fun entry => entry.2.push accumulators.maxDistinct entry.1 row)
  return { accumulators with state := state }

/-- The results, in the order the aggregates were given. -/
def finish (accumulators : Accumulators) : List Value :=
  (accumulators.specs.zip accumulators.state).map (fun entry => entry.2.finish entry.1)

end Accumulators

/-! ## Groups -/

/-- One row of a grouped result. -/
structure Group where
  key : List Value
  values : List Value

/-- The group as one row: its key, then its aggregates. -/
def Group.asRow (group : Group) : Row := ⟨group.key ++ group.values⟩

/-- How to group rows, what to compute, and what to do with the groups. -/
structure Grouping where
  group : List Ordinal
  aggregates : List Aggregate
  having : Expr := .true
  sort : List SortKey := []
  limit : Option Nat := none
  offset : Nat := 0

namespace Grouping

/-- The values a row is grouped by. -/
def key (grouping : Grouping) (row : Row) : List Value :=
  grouping.group.map (fun ordinal => (row.get ordinal).getD .null)

/-- The bytes that decide which group a row is in. -/
def encodedKey (grouping : Grouping) (row : Row) : Bytes :=
  grouping.group.flatMap (fun ordinal =>
    encodeValue .asc ((row.get ordinal).getD .null))

end Grouping

namespace Grouper

/-- The groups so far, under their encoded keys. -/
abbrev Groups := List (Bytes × List Value × Accumulators)

variable (grouping : Grouping) (limits : ExecutionLimits)

/-- A group that no row has been folded into. -/
def start (row : Row) : List Value × Accumulators :=
  (grouping.key row, .withLimits grouping.aggregates limits)

def accumulate (group : List Value × Accumulators) (row : Row) :
    Except KernelError (List Value × Accumulators) := do
  let accumulators ← group.2.push row
  return (group.1, accumulators)

/-- Fold one row into its group. -/
def push : Groups → Row → Except KernelError Groups :=
  KeyedFolds.push limits.maxGroups (.tooManyGroups limits.maxGroups)
    grouping.encodedKey (start grouping limits) accumulate

/-- The groups in the order of their encoded keys. -/
def ordered (groups : Groups) : List Group := (KeyedFolds.sorted compare groups).map
    (fun entry => ⟨entry.2.1, entry.2.2.finish⟩)

section

variable [Platform]

/-- Groups, filtered, ordered and windowed. -/
def arrange (groups : List Group) : List Group :=
  let groups := groups.filter (fun group => grouping.having.admits group.asRow)
  let groups := if grouping.sort.isEmpty then
      groups
    else
      groups.mergeSort (fun first second =>
        compareRows first.asRow second.asRow grouping.sort ≠ .gt)
  let groups := groups.drop grouping.offset
  match grouping.limit with
  | some limit => groups.take limit
  | none => groups

/-- The groups that rows were folded into, filtered, ordered and windowed. -/
def finish (groups : Groups) : List Group := arrange grouping (ordered groups)

/-- Group rows. -/
def run (rows : List Row) : Except KernelError (List Group) := do
  let groups ← rows.foldlM (push grouping limits) []
  return finish grouping groups

end

end Grouper

end SlateOrm
