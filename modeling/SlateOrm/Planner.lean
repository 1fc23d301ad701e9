import SlateOrm.Security
import SlateOrm.KeyRange

namespace SlateOrm

/-!
# The planner

A query names the rows it wants; a plan says which keys to read for them.  The
planner derives key ranges from the conjuncts of the filter, offers one access
path for the primary key and one for each usable index, and takes the cheapest.
What it takes for cheap comes from statistics, which are a parameter here.
-/

/-! ## Equality of expressions -/

mutual

/-- Expressions that are the same up to equal values. -/
def Expr.same : Expr → Expr → Bool
  | .true, .true => Bool.true
  | .false, .false => Bool.true
  | .compare column op value, .compare column' op' value' =>
      column == column' && op == op' && value == value'
  | .compareColumns left op right, .compareColumns left' op' right' =>
      left == left' && op == op' && right == right'
  | .isNull column negated, .isNull column' negated' =>
      column == column' && negated == negated'
  | .like column pattern negated insensitive,
      .like column' pattern' negated' insensitive' =>
      column == column' && pattern == pattern' && negated == negated' &&
        insensitive == insensitive'
  | .matches column pattern negated insensitive,
      .matches column' pattern' negated' insensitive' =>
      column == column' && pattern == pattern' && negated == negated' &&
        insensitive == insensitive'
  | .contains column terms, .contains column' terms' =>
      column == column' && terms == terms'
  | .in column values, .in column' values' => column == column' && values == values'
  | .inSorted column values anyNull, .inSorted column' values' anyNull' =>
      column == column' && values == values' && anyNull == anyNull'
  | .and parts, .and parts' => Expr.sameList parts parts'
  | .or parts, .or parts' => Expr.sameList parts parts'
  | .not inner, .not inner' => inner.same inner'
  | _, _ => Bool.false

def Expr.sameList : List Expr → List Expr → Bool
  | [], [] => Bool.true
  | part :: rest, part' :: rest' => part.same part' && Expr.sameList rest rest'
  | _, _ => Bool.false

end

mutual

/-- Scalars that are the same up to equal values. -/
def Scalar.same : Scalar → Scalar → Bool
  | .column ordinal, .column ordinal' => ordinal == ordinal'
  | .literal value, .literal value' => value == value'
  | .add left right, .add left' right' => left.same left' && right.same right'
  | .sub left right, .sub left' right' => left.same left' && right.same right'
  | .mul left right, .mul left' right' => left.same left' && right.same right'
  | .div left right, .div left' right' => left.same left' && right.same right'
  | .length inner, .length inner' => inner.same inner'
  | .concat parts, .concat parts' => Scalar.sameList parts parts'
  | .lower inner, .lower inner' => inner.same inner'
  | .upper inner, .upper inner' => inner.same inner'
  | .extract unit value, .extract unit' value' => unit == unit' && value.same value'
  | .round value, .round value' => value.same value'
  | .calendarPart part value, .calendarPart part' value' =>
      part == part' && value.same value'
  | .calendarTrunc unit value, .calendarTrunc unit' value' =>
      unit == unit' && value.same value'
  | .zoneShift zone value, .zoneShift zone' value' => zone == zone' && value.same value'
  | .dateTrunc unit value, .dateTrunc unit' value' => unit == unit' && value.same value'
  | .case branches otherwise, .case branches' otherwise' =>
      Scalar.sameBranches branches branches' && otherwise.same otherwise'
  | .coalesce parts, .coalesce parts' => Scalar.sameList parts parts'
  | .distance left right metric, .distance left' right' metric' =>
      left.same left' && right.same right' && metric == metric'
  | .regexpReplace value pattern replacement,
      .regexpReplace value' pattern' replacement' =>
      value.same value' && pattern == pattern' &&
        replacement == replacement'
  | _, _ => Bool.false

def Scalar.sameList : List Scalar → List Scalar → Bool
  | [], [] => Bool.true
  | part :: rest, part' :: rest' => part.same part' && Scalar.sameList rest rest'
  | _, _ => Bool.false

def Scalar.sameBranches : List (Expr × Scalar) → List (Expr × Scalar) → Bool
  | [], [] => Bool.true
  | (condition, result) :: rest, (condition', result') :: rest' =>
      condition.same condition' && result.same result' && Scalar.sameBranches rest rest'
  | _, _ => Bool.false

end

/-! ## Queries -/

/-- Where nulls stand in a sorted result. -/
inductive NullsOrder where
  | first
  | last
  deriving DecidableEq, Repr

def NullsOrder.naturalFor : Direction → NullsOrder
  | .asc => .first
  | .desc => .last

/-- One key of a requested order. -/
structure SortKey where
  column : Ordinal
  direction : Direction
  nulls : NullsOrder
  deriving DecidableEq, Repr

/-- Whether reading a stored order one way yields the requested one. -/
def SortKey.matchesStorage (key : SortKey) (stored : Direction)
    (order : ScanOrder) : Bool :=
  let effective : Direction :=
    match stored, order with
    | .asc, .ascending | .desc, .descending => .asc
    | _, _ => .desc
  key.direction == effective && key.nulls == NullsOrder.naturalFor effective

/-- An access path the caller asks for. -/
inductive AccessHint where
  | tableScan
  | index (id : IndexId)
  deriving DecidableEq, Repr

/-- The columns a query returns. -/
inductive Projection where
  | all
  | columns (ordinals : List Ordinal)
  deriving DecidableEq, Repr

/-- A query of one table for all its rows: no limit, no window, no page. -/
structure Query where
  filter : Expr := .true
  order : ScanOrder := .ascending
  projection : Projection := .all
  sort : List SortKey := []
  hint : Option AccessHint := none
  compute : List Scalar := []
  includeDeleted : Bool := false

/-- Which keys a plan reads. -/
inductive Access where
  | pointGet (key : List Value)
  | tableScan (range : KeyRange)
  | indexScan (index : IndexId) (range : KeyRange) (covering : Bool)
  | indexScans (index : IndexId) (ranges : List KeyRange) (covering : Bool)
  | pointGets (keys : List (List Value))
  | nothing
  deriving Repr

/-- How a query is carried out. -/
structure Plan where
  access : Access
  residual : Expr
  order : ScanOrder
  sort : Option (List SortKey)
  predicateColumns : ColumnSet
  outputColumns : ColumnSet
  filterFirst : Bool
  concealed : List Ordinal := []

def MAX_POINT_GETS : Nat := 1024
def MAX_INDEX_RANGES : Nat := 1024

/-! ## Statistics -/

/-- What an estimate is made for. -/
structure Estimated where
  predicate : Expr
  compute : List Scalar
  access : Access
  mustSort : Bool

/--
The statistics of a table, as far as plans depend on them: which of two access
paths costs less, whether the filter leaves few enough rows to be evaluated
before the rest of a row is decoded, and how rare a term is.
-/
structure TableStats where
  cheaper : Estimated → Estimated → Bool
  filterFirst : Estimated → Bool
  termRank : Ordinal → String → Int

/-! ## Constraints -/

/-- What the conjuncts of a filter say about one column. -/
structure ColumnConstraints where
  equals : Option Value := none
  ranges : List (CmpOp × Value) := []
  anyOf : Option (List Value) := none
  startsWith : Option Value := none
  deriving Inhabited

abbrev Constraints := List (Ordinal × ColumnConstraints)

/-- Change the entry of a column, which is added if it is not there. -/
def Constraints.update (ordinal : Ordinal)
    (change : ColumnConstraints → ColumnConstraints) :
    Constraints → Constraints
  | [] => [(ordinal, change {})]
  | (other, constraint) :: rest =>
      if other = ordinal then
        (other, change constraint) :: rest
      else
        (other, constraint) :: Constraints.update ordinal change rest

/-- Add what one conjunct says. -/
def collectConstraint (constraints : Constraints) (conjunct : Expr) :
    Constraints :=
  match conjunct with
  | .compare column op value =>
      if value.isNull then
        constraints
      else
        constraints.update column (fun constraint =>
          match op with
          | .eq => { constraint with equals := some value }
          | .ne => constraint
          | op => { constraint with
              ranges := constraint.ranges ++ [(op, value)] })
  | .like column pattern false false =>
      match likePrefix pattern with
      | none => constraints
      | some start =>
          constraints.update column (fun constraint =>
            { constraint with
              startsWith := constraint.startsWith.or (some (.str start)) })
  | .in column values =>
      if values.isEmpty then
        constraints
      else
        constraints.update column (fun constraint =>
          { constraint with anyOf := constraint.anyOf.or (some values) })
  | .isNull column false =>
      constraints.update column (fun constraint =>
        { constraint with equals := some .null })
  | _ => constraints

def collectConstraints (conjuncts : List Expr) : Constraints :=
  conjuncts.foldl collectConstraint []

def constraintsFor (constraints : Constraints) (ordinal : Ordinal) :
    Option ColumnConstraints :=
  (constraints.find? (fun entry => entry.1 == ordinal)).map Prod.snd

/-- The value a column must equal. -/
def equalsFor (constraints : Constraints) (ordinal : Ordinal) : Option Value :=
  (constraintsFor constraints ordinal).bind ColumnConstraints.equals

/-! ## Ranges -/

/-- A range that holds nothing. -/
def emptyRange (key : Bytes) : KeyRange where
  start := .included key
  stop := .excluded key

/-- The keys after a prefix whose next element is on one side of a value. -/
def boundFor (keyPrefix : Bytes) (op : CmpOp) (value : Value)
    (direction : Direction) : KeyRange :=
  let op := match direction with
    | .asc => op
    | .desc => op.mirrored
  let boundary := keyPrefix ++ encodeValue direction value
  match op with
  | .lt => ⟨.unbounded, .excluded boundary⟩
  | .le =>
      match prefixSuccessor boundary with
      | some after => ⟨.unbounded, .excluded after⟩
      | none => ⟨.unbounded, .unbounded⟩
  | .gt =>
      match prefixSuccessor boundary with
      | some after => ⟨.included after, .unbounded⟩
      | none => emptyRange boundary
  | .ge => ⟨.included boundary, .unbounded⟩
  | .eq | .ne => .all

/-- The encodings of the leading columns that must equal a value. -/
def equalityPrefix (constraints : Constraints) :
    List (Ordinal × Direction) → Bytes × List (Ordinal × Direction)
  | [] => ([], [])
  | (ordinal, direction) :: rest =>
      match equalsFor constraints ordinal with
      | none => ([], (ordinal, direction) :: rest)
      | some value =>
          let (bytes, unbound) := equalityPrefix constraints rest
          (encodeValue direction value ++ bytes, unbound)

/--
The keys a filter leaves: the leading equalities fix a prefix, and the column
after them may be bounded by the start of a text or by comparisons.
-/
def matchKey (base : Bytes) (keyColumns : List (Ordinal × Direction))
    (constraints : Constraints) : KeyRange :=
  let (bytes, unbound) := equalityPrefix constraints keyColumns
  let keyPrefix := base ++ bytes
  match unbound.head? with
  | none => .ofPrefix keyPrefix
  | some (ordinal, direction) =>
      match constraintsFor constraints ordinal with
      | none => .ofPrefix keyPrefix
      | some constraint =>
          if constraint.ranges.isEmpty then
            match constraint.startsWith.bind
                (fun start => encodePrefix start direction) with
            | some start => .ofPrefix (keyPrefix ++ start)
            | none => .ofPrefix keyPrefix
          else
            constraint.ranges.foldl (fun range bound =>
                range.intersect (boundFor keyPrefix bound.1 bound.2 direction))
              (.ofPrefix keyPrefix)

/-! ## Candidates -/

/-- An access path, and the order it yields rows in. -/
structure Candidate where
  access : Access
  naturalOrder : List (Ordinal × Direction)

/-- Whether a sequence of columns comes in a requested order. -/
def satisfiesSort (order : ScanOrder) : List (Ordinal × Direction) → List SortKey → Bool
  | _, [] => true
  | [], _ :: _ => false
  | (column, stored) :: produced, key :: sort =>
      column == key.column && key.matchesStorage stored order &&
        satisfiesSort order produced sort

/-- Whether a path yields rows in a requested order, up to fixed columns. -/
def Candidate.satisfies (candidate : Candidate) (sort : List SortKey)
    (order : ScanOrder) (pinned : List Ordinal) : Bool :=
  satisfiesSort order
    (candidate.naturalOrder.filter (fun entry => !pinned.contains entry.1))
    (sort.filter (fun key => !pinned.contains key.column))

/-- The primary key's columns, all ascending. -/
def primaryKeyColumns (table : TableDef) : List (Ordinal × Direction) :=
  table.primaryKey.map (fun ordinal => (ordinal, .asc))

/-- The path over the rows themselves. -/
def matchPrimaryKey (table : TableDef) (constraints : Constraints)
    (ordered : Bool) : Candidate :=
  let scan : Candidate := {
    access := .tableScan (matchKey (Keys.tablePrefix table) (primaryKeyColumns table)
        constraints)
    naturalOrder := if ordered then primaryKeyColumns table else [] }
  match table.primaryKey.mapM (equalsFor constraints) with
  | some key => if key.isEmpty then scan else ⟨.pointGet key, []⟩
  | none => scan

/--
The keys of a primary key with one column among some values and every other
fixed, with the varying position.
-/
def pointGetColumns (constraints : Constraints) :
    List Ordinal → Option (List (Option Value) × Option (List Value))
  | [] => some ([], none)
  | ordinal :: rest => do
      let constraint ← constraintsFor constraints ordinal
      let (fixed, varying) ← pointGetColumns constraints rest
      match constraint.equals with
      | some value => some (some value :: fixed, varying)
      | none =>
          match varying with
          | some _ => none
          | none => do
              let values ← constraint.anyOf
              some (none :: fixed, some values)

/-- The primary keys a filter leaves, when it names them. -/
def pointGetSet (table : TableDef) (constraints : Constraints) :
    Option (List (List Value)) := do
  let (fixed, varying) ← pointGetColumns constraints table.primaryKey
  let values ← varying
  if values.isEmpty || MAX_POINT_GETS < values.length then
    none
  else
    let keys := values.map (fun value => fixed.map (fun slot => slot.getD value))
    let sorted := keys.insertionSort
      (fun first second => Value.cmpList first second ≠ .gt)
    some (dedup sorted)

/-- The path over single rows that the filter names. -/
def matchPointGets (table : TableDef) (constraints : Constraints) : Option Candidate :=
  (pointGetSet table constraints).map (fun keys => ⟨.pointGets keys, []⟩)

/-- The scalar an index computes its key with, when it is one. -/
def indexExpression (index : IndexDef) : Option Scalar :=
  match index.expression with
  | some ⟨.scalar expression, _, _⟩ => some expression
  | _ => none

/-- The expression a partial index is restricted by, when it is one. -/
def indexPredicate (index : IndexDef) : Option Expr :=
  match index.predicate with
  | some (.expr expression) => some expression
  | _ => none

/-- Which computed column an index holds. -/
def expressionPosition (index : IndexDef) (compute : List Scalar) : Option Nat := do
  let expression ← indexExpression index
  compute.findIdx? (fun scalar => scalar.same expression)

/-! ## Implication -/

/-- Whether a value compares to another as an operator says. -/
def satisfies (value : Value) (op : CmpOp) (goalValue : Value) : Bool :=
  op.apply (value.cmp goalValue)

/-- Whether one comparison of a column implies another. -/
def comparisonImplies (held : CmpOp) (value : Value) (goal : CmpOp)
    (goalValue : Value) : Bool :=
  match held, goal with
  | .eq, goal => satisfies value goal goalValue
  | .ne, _ => false
  | .lt, .lt | .lt, .le => (value.cmp goalValue).isLE
  | .le, .lt => (value.cmp goalValue).isLT
  | .le, .le => (value.cmp goalValue).isLE
  | .gt, .gt | .gt, .ge => (value.cmp goalValue).isGE
  | .ge, .gt => (value.cmp goalValue).isGT
  | .ge, .ge => (value.cmp goalValue).isGE
  | .lt, .ne => (goalValue.cmp value).isGE
  | .le, .ne => (goalValue.cmp value).isGT
  | .gt, .ne => (goalValue.cmp value).isLE
  | .ge, .ne => (goalValue.cmp value).isLT
  | _, _ => false

/-- The column a predicate says is not null. -/
def notNullGoal : Expr → Option Ordinal
  | .isNull column true => some column
  | .not (.isNull column false) => some column
  | _ => none

/-- Whether a predicate is unknown of a null in a column. -/
def unknownOnNull (query : Expr) (column : Ordinal) : Bool :=
  match query with
  | .compare on _ value => on == column && !value.isNull
  | .in on _ => on == column
  | .like on _ _ _ => on == column
  | .matches on _ _ _ => on == column
  | .compareColumns left _ right => left == column || right == column
  | _ => false

/-- Whether a predicate admits no row with a null in a column. -/
def excludesNulls (query : Expr) (column : Ordinal) : Bool :=
  match query with
  | .isNull on true => on == column
  | .not (.isNull on false) => on == column
  | .not inner => unknownOnNull inner column
  | _ => unknownOnNull query column

/-- Whether one predicate without connectives implies another. -/
def leafImplies (query goal : Expr) : Bool :=
  match notNullGoal goal with
  | some column => excludesNulls query column
  | none =>
      match goal, query with
      | .compare column op goalValue, .compare on held value =>
          !goalValue.isNull && on == column && !value.isNull &&
            comparisonImplies held value op goalValue
      | .compare column op goalValue, .in on values =>
          !goalValue.isNull && on == column && !values.isEmpty &&
            values.all (fun value => !value.isNull && satisfies value op goalValue)
      | _, _ => false

mutual

theorem Expr.sizeOf_conjuncts :
    ∀ (predicate conjunct : Expr),
      conjunct ∈ predicate.conjuncts → sizeOf conjunct ≤ sizeOf predicate
  | .and parts, conjunct, member => by
      have smaller := Expr.sizeOf_conjunctsList parts conjunct
        (by simpa only [Expr.conjuncts] using member)
      simp only [Expr.and.sizeOf_spec]
      omega
  | .true, conjunct, member => by simp [Expr.conjuncts] at member
  | .false, conjunct, member
  | .compare .., conjunct, member
  | .compareColumns .., conjunct, member
  | .isNull .., conjunct, member
  | .like .., conjunct, member
  | .matches .., conjunct, member
  | .contains .., conjunct, member
  | .in .., conjunct, member
  | .inSorted .., conjunct, member
  | .or .., conjunct, member
  | .not .., conjunct, member => by
      simp only [Expr.conjuncts, List.mem_singleton] at member
      rw [member]

theorem Expr.sizeOf_conjunctsList :
    ∀ (parts : List Expr) (conjunct : Expr),
      conjunct ∈ Expr.conjunctsList parts → sizeOf conjunct < sizeOf parts
  | [], conjunct, member => by simp [Expr.conjunctsList] at member
  | part :: rest, conjunct, member => by
      rw [Expr.conjunctsList, List.mem_append] at member
      simp only [List.cons.sizeOf_spec]
      rcases member with inPart | inRest
      · have smaller := Expr.sizeOf_conjuncts part conjunct inPart
        omega
      · have smaller := Expr.sizeOf_conjunctsList rest conjunct inRest
        omega

end

/-- Whether every row a predicate admits is admitted by one goal. -/
def impliesOne (query goal : Expr) : Bool :=
  query.same goal || goal.same .true || (match goal with
      | .or branches => branches.attach.any (fun branch => impliesOne query branch.1)
      | _ => false) ||
    match query with
    | .false => true
    | .and parts =>
        (Expr.conjunctsList parts).attach.any
          (fun conjunct => impliesOne conjunct.1 goal)
    | .or branches =>
        !branches.isEmpty &&
          branches.attach.all (fun branch => impliesOne branch.1 goal)
    | _ => leafImplies query goal
termination_by sizeOf query + sizeOf goal
decreasing_by
  · have smaller := List.sizeOf_lt_of_mem branch.2
    simp only [Expr.or.sizeOf_spec]
    omega
  · have smaller := Expr.sizeOf_conjunctsList parts conjunct.1 conjunct.2
    simp only [Expr.and.sizeOf_spec]
    omega
  · have smaller := List.sizeOf_lt_of_mem branch.2
    simp only [Expr.or.sizeOf_spec]
    omega

/-- Whether every row a query admits is in a partial index. -/
def implies (query index : Expr) : Bool := index.conjuncts.all (impliesOne query)

/-! ## Index paths -/

/-- The columns a query needs from its access path. -/
inductive Needed where
  | all
  | some (columns : List Ordinal)

/-- What index paths are made for. -/
structure MatchContext where
  table : TableDef
  predicate : Expr
  constraints : Constraints
  needed : Needed
  stats : TableStats
  ordered : Bool
  compute : List Scalar

def MatchContext.width (context : MatchContext) : Nat := context.table.columns.length

/-- Whether the entries of an index hold a column. -/
def holds (table : TableDef) (index : IndexDef) (ordinal : Ordinal) : Bool :=
  index.columns.any (fun column => column.ordinal == ordinal) ||
    table.primaryKey.contains ordinal

/-- Which computed columns can be had from the entries of an index. -/
def availableComputes (context : MatchContext) (index : IndexDef) :
    List Bool → List Scalar → List Bool
  | available, [] => available
  | available, scalar :: rest =>
      let supplied :=
        expressionPosition index context.compute == some available.length ||
          scalar.columns.all (fun input =>
            if input < context.width then
              holds context.table index input
            else
              match available[input - context.width]? with
              | some ready => ready
              | none => decide (context.compute.length ≤ input - context.width))
      availableComputes context index (available ++ [supplied]) rest

/-- Whether the entries of an index hold everything a query needs. -/
def covers (context : MatchContext) (index : IndexDef) : Bool := if index.text then
    false
  else
    match context.needed with
    | .all =>
        (List.range context.table.columns.length).all (holds context.table index)
    | .some columns =>
        let available := availableComputes context index [] context.compute
        columns.all (fun ordinal =>
          if ordinal < context.width then
            holds context.table index ordinal
          else
            (available[ordinal - context.width]?).getD true)

/-- The first of the terms that is no more frequent than any other. -/
def rarestTerm (rank : String → Int) : List String → Option String
  | [] => none
  | term :: rest =>
      match rarestTerm rank rest with
      | none => some term
      | some other => if rank other < rank term then some other else some term

/-- The terms a conjunct asks a column for. -/
def containsTerms (column : Ordinal) : Expr → Option (List String)
  | .contains on terms => if on = column then some terms else none
  | _ => none

/-- The term a text index is read for. -/
def textTerm (context : MatchContext) (index : IndexDef) : Option String := do
  let column ← index.columns.head?
  let terms ← context.predicate.conjuncts.findSome? (containsTerms column.ordinal)
  rarestTerm (context.stats.termRank column.ordinal) terms

/-- The path over a text index. -/
def matchTextIndex (context : MatchContext) (index : IndexDef) : Option Candidate := do
  let term ← textTerm context index
  let keyPrefix := Keys.indexPrefix context.table index none
  let keyPrefix ←
    match context.table.tenantColumn with
    | none => some keyPrefix
    | some tenant =>
        (equalsFor context.constraints tenant).map
          (fun value => keyPrefix ++ encodeValue .asc value)
  let keyPrefix := keyPrefix ++ encodeValue .asc (.str term)
  return {
    access := .indexScan index.id (.ofPrefix keyPrefix) false
    naturalOrder := if context.ordered then primaryKeyColumns context.table else [] }

/-- Whether a value meets what else is said about its column. -/
def meetsOtherBounds (constraint : ColumnConstraints) (value : Value) :
    Bool :=
  constraint.ranges.all (fun bound => satisfies value bound.1 bound.2) &&
    match constraint.startsWith, value with
    | some (.str start), .str text => start.toList.isPrefixOf text.toList
    | some _, _ => false
    | none, _ => true

def startBytes (range : KeyRange) : Option Bytes :=
  match range.start with
  | .unbounded => none
  | .included key | .excluded key => some key

/-- Whether a range starts no later than another. -/
def startsNoLater (first second : KeyRange) : Bool :=
  match startBytes first, startBytes second with
  | none, _ => true
  | some _, none => false
  | some x, some y => (compare x y).isLE

/-- The constraints with one column fixed to a value. -/
def pinColumn (constraints : Constraints) (ordinal : Ordinal)
    (value : Value) : Constraints :=
  match constraints with
  | [] => []
  | (other, constraint) :: rest =>
      if other = ordinal then
        (other, { constraint with equals := some value, anyOf := none }) ::
          rest
      else
        (other, constraint) :: pinColumn rest ordinal value

/-- One range for each value of a list that the first free column may take. -/
def inRanges (base : Bytes) (keyColumns : List (Ordinal × Direction))
    (constraints : Constraints) : Option (List KeyRange) := do
  let (ordinal, _) ←
    keyColumns.find? (fun entry => (equalsFor constraints entry.1).isNone)
  let constraint ← constraintsFor constraints ordinal
  let values ← constraint.anyOf
  if MAX_INDEX_RANGES < values.length then
    none
  else
    let sorted := (values.filter (fun value => !value.isNull)).insertionSort
        (fun first second => first.cmp second ≠ .gt)
    let distinct := dedup sorted
    if distinct.isEmpty || MAX_INDEX_RANGES < distinct.length then
      none
    else
      let ranges := ((distinct.filter (meetsOtherBounds constraint)).map (fun value =>
          matchKey base keyColumns (pinColumn constraints ordinal value))
        ).filter (fun range => !range.isEmpty)
      if ranges.isEmpty then
        none
      else
        some (ranges.insertionSort (fun first second =>
          startsNoLater first second = true))

/-- The columns of an index's keys, the tenant first. -/
def indexKeyColumns (context : MatchContext) (index : IndexDef) :
    Option (List (Ordinal × Direction)) :=
  let tenant : List (Ordinal × Direction) :=
    match context.table.tenantColumn with
    | some tenant => [(tenant, .asc)]
    | none => []
  match index.expression with
  | none =>
      some (tenant ++ index.columns.map (fun column =>
        (column.ordinal, column.direction)))
  | some declared =>
      (expressionPosition index context.compute).map (fun position =>
        tenant ++ [(context.width + position, declared.direction)])

/-- Whether every row a query admits is in an index. -/
def usable (context : MatchContext) (index : IndexDef) : Bool :=
  match index.predicate with
  | none => true
  | some _ =>
      match indexPredicate index with
      | some predicate => implies context.predicate predicate
      | none => false

/-- The path over an index. -/
def matchIndex (context : MatchContext) (index : IndexDef) : Option Candidate :=
  if !usable context index then
    none
  else if index.text then
    matchTextIndex context index
  else do
    let keyColumns ← indexKeyColumns context index
    let base := Keys.indexPrefix context.table index none
    let covering := covers context index
    let naturalOrder := if context.ordered then
        keyColumns ++ primaryKeyColumns context.table
      else
        []
    match inRanges base keyColumns context.constraints with
    | some [range] => return ⟨.indexScan index.id range covering, naturalOrder⟩
    | some ranges => return ⟨.indexScans index.id ranges covering, naturalOrder⟩
    | none =>
        return ⟨.indexScan index.id
          (matchKey base keyColumns context.constraints) covering,
          naturalOrder⟩

/-! ## Plans -/

/-- The stored columns a column of a query is made of. -/
def expandedInputs (column : Ordinal) (width : Nat)
    (compute : List Scalar) : List Ordinal :=
  if column < width then
    [column]
  else
    match compute[column - width]? with
    | some scalar => scalar.columns
    | none => []

/-- The paths a hint leaves, in the order they are considered. -/
def candidates (context : MatchContext) (hint : Option AccessHint) : List Candidate :=
  let table := context.table
  let primary := matchPrimaryKey table context.constraints context.ordered
  let points := (matchPointGets table context.constraints).toList
  let indexed (chosen : List IndexDef) := chosen.filterMap (matchIndex context)
  match hint with
  | none => primary :: points ++ indexed table.indexes
  | some .tableScan => primary :: points
  | some (.index wanted) =>
      match indexed (table.indexes.filter (fun index => index.id == wanted)) with
      | [] => [primary]
      | found => found

/-- Keep the path that costs least; the first of equals. -/
def cheapest (stats : TableStats) (estimated : Candidate → Estimated) :
    Candidate → List Candidate → Candidate
  | best, [] => best
  | best, candidate :: rest =>
      if stats.cheaper (estimated candidate) (estimated best) then
        cheapest stats estimated candidate rest
      else
        cheapest stats estimated best rest

/-- Whether no row can satisfy a conjunct. -/
def unsatisfiable : Expr → Bool
  | .compare _ _ value => value.isNull
  | .false => true
  | _ => false

/-- A path over ranges without keys reads nothing. -/
def prunedAccess : Access → Access
  | .tableScan range => if range.isEmpty then .nothing else .tableScan range
  | .indexScan index range covering =>
      if range.isEmpty then .nothing else .indexScan index range covering
  | .indexScans index ranges covering =>
      if ranges.all KeyRange.isEmpty then
        .nothing
      else
        .indexScans index ranges covering
  | access => access

/-- The columns that the rows of a query are decoded to. -/
def planOutputColumns (table : TableDef) (predicate : Expr)
    (projection : Projection) (sort : List SortKey) : ColumnSet :=
  let width := table.columns.length
  match projection with
  | .all => Finset.range width
  | .columns ordinals =>
      ((predicate.columns ++ ordinals ++ sort.map SortKey.column).filter
        (fun ordinal => ordinal < width)).toFinset

/-- Plan a query. -/
def planHinted (table : TableDef) (predicate : Expr) (order : ScanOrder)
    (projection : Projection) (stats : TableStats)
    (sort : List SortKey) (hint : Option AccessHint)
    (compute : List Scalar) : Plan :=
  let width := table.columns.length
  let conjuncts := predicate.conjuncts
  let predicateColumns : ColumnSet := (predicate.columns.flatMap
      (fun column => expandedInputs column width compute)).toFinset
  let outputColumns := planOutputColumns table predicate projection sort
  if conjuncts.any unsatisfiable then
    { access := .nothing
      residual := predicate.prepared
      order := order
      sort := none
      predicateColumns := predicateColumns
      outputColumns := outputColumns
      filterFirst := false }
  else
    let constraints := collectConstraints conjuncts
    let pinned := (constraints.filter (fun entry => entry.2.equals.isSome)).map Prod.fst
    let needed :=
      match projection with
      | .all => Needed.all
      | .columns ordinals =>
          .some (predicate.columns ++ ordinals ++ sort.map SortKey.column ++
            (List.range compute.length).map (fun i => width + i))
    let context : MatchContext := {
      table := table
      predicate := predicate
      constraints := constraints
      needed := needed
      stats := stats
      ordered := !sort.isEmpty
      compute := compute }
    let mustSort (candidate : Candidate) :=
      !sort.isEmpty && !candidate.satisfies sort order pinned
    let estimated (candidate : Candidate) : Estimated := {
      predicate := predicate
      compute := compute
      access := candidate.access
      mustSort := mustSort candidate }
    let best :=
      match candidates context hint with
      | [] => matchPrimaryKey table constraints (!sort.isEmpty)
      | first :: rest => cheapest stats estimated first rest
    { access := prunedAccess best.access
      residual := predicate.prepared
      order := order
      sort := if mustSort best then some sort else none
      predicateColumns := predicateColumns
      outputColumns := outputColumns
      filterFirst := stats.filterFirst (estimated best) }

end SlateOrm
