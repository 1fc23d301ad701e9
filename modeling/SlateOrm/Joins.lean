import SlateOrm.PagedReads

namespace SlateOrm

/-!
# Joins and chains

A join pairs the rows of two tables that agree on some columns, and a chain
joins one more table at each of its steps.  Conditions and computed values name
the columns of all tables in one space: those of each table come after those of
the tables before it, and what is computed comes last.
-/

/-- Which side of a join. -/
inductive Side where
  | left
  | right
  deriving DecidableEq, Repr

def Side.other : Side → Side
  | .left => .right
  | .right => .left

/-- Which rows survive a join. -/
inductive JoinType where
  | inner
  | left
  | right
  | full
  deriving DecidableEq, Repr

/-- Whether a row of a side is returned that nothing matched. -/
def JoinType.preserves : JoinType → Side → Bool
  | .inner, _ => false
  | .full, _ => true
  | .left, .left => true
  | .right, .right => true
  | .left, .right => false
  | .right, .left => false

/-- One equality of a join: a column of each side. -/
structure JoinKey where
  left : Ordinal
  right : Ordinal
  deriving DecidableEq, Repr

/-- How two sides are combined. -/
inductive JoinAlgorithm where
  | hash (build : Side)
  | nestedLoop
  deriving DecidableEq, Repr

/-- How many rows are held at most, unless a caller says otherwise. -/
def DEFAULT_BUILD_LIMIT : Nat := 100000

/-- A request to join two tables. -/
structure Join where
  left : PagedQuery := {}
  right : PagedQuery := {}
  on : List JoinKey
  joinType : JoinType := .inner
  limit : Option Nat := none
  offset : Nat := 0
  buildLimit : Nat := DEFAULT_BUILD_LIMIT
  having : Expr := .true
  force : Option JoinAlgorithm := none
  compute : List Scalar := []
  after : Option (List Value) := none
  paging : Bool := false

/-- What is read from a side. -/
def Join.query (join : Join) : Side → PagedQuery
  | .left => join.left
  | .right => join.right

/-- The columns of a side that a join equates. -/
def Join.columns (join : Join) : Side → List Ordinal
  | .left => join.on.map JoinKey.left
  | .right => join.on.map JoinKey.right

/-- One table added to a chain, on columns of those before it. -/
structure JoinStep where
  query : PagedQuery := {}
  on : List JoinKey
  joinType : JoinType := .inner
  having : Expr := .true
  force : Option JoinAlgorithm := none

/-- A request to join a chain of tables. -/
structure Chain where
  first : PagedQuery := {}
  steps : List JoinStep
  limit : Option Nat := none
  offset : Nat := 0
  buildLimit : Nat := DEFAULT_BUILD_LIMIT
  after : Option (List Value) := none
  paging : Bool := false
  compute : List Scalar := []

/-- What a chain reads from each of its tables. -/
def Chain.queries (chain : Chain) : List PagedQuery :=
  chain.first :: chain.steps.map JoinStep.query

/-! ## The joined space -/

/-- Columns once each, in ascending order. -/
def ascending (columns : List Ordinal) : List Ordinal :=
  columns.dedup.insertionSort (· ≤ ·)

@[simp] theorem mem_ascending
    {columns : List Ordinal} {column : Ordinal} :
    column ∈ ascending columns ↔ column ∈ columns := by
  rw [ascending, List.mem_insertionSort, List.mem_dedup]

/-- How an error prints a column. -/
def debugColumn (ordinal : Ordinal) : String := "Ordinal(" ++ toString ordinal ++ ")"

/-- How many columns each joined table has, and how many values are computed. -/
structure JoinSchema where
  widths : List Nat
  computed : Nat := 0
  deriving DecidableEq, Repr

namespace JoinSchema

/-- The space of some tables, in the order they are joined. -/
def overTables (tables : List TableDef) : JoinSchema where
  widths := tables.map (fun table => table.columns.length)

/-- The space of two tables. -/
def of (left right : TableDef) : JoinSchema := overTables [left, right]

/-- The same space with room for computed values. -/
def computing (schema : JoinSchema) (count : Nat) : JoinSchema :=
  { schema with computed := count }

/-- The columns of the tables. -/
def columns (schema : JoinSchema) : Nat := schema.widths.sum

/-- The columns of the tables and the computed values. -/
def width (schema : JoinSchema) : Nat := schema.columns + schema.computed

/-- The columns of one table; none past the last. -/
def widthAt (schema : JoinSchema) (position : Nat) : Nat :=
  (schema.widths[position]?).getD 0

/-- A column of the table at a position, in the joined space. -/
def atPosition (schema : JoinSchema) (position : Nat) (column : Ordinal) :
    Ordinal :=
  if position < schema.widths.length then
    (schema.widths.take position).sum + column
  else
    column

/-- The table of a column, when the tables start at a position and a column. -/
def locateFrom (position start : Nat) : List Nat → Ordinal → Option (Nat × Ordinal)
  | [], _ => none
  | width :: rest, column =>
      if start ≤ column ∧ column < start + width then
        some (position, column - start)
      else
        locateFrom (position + 1) (start + width) rest column

/-- The table that a column belongs to, and the column there. -/
def locate (schema : JoinSchema) (column : Ordinal) : Option (Nat × Ordinal) :=
  locateFrom 0 0 schema.widths column

/-- The side that a column belongs to, and the column there. -/
def resolve (schema : JoinSchema) (column : Ordinal) : Option (Side × Ordinal) :=
  match schema.locate column with
  | some (0, place) => some (.left, place)
  | some (1, place) => some (.right, place)
  | _ => none

/-- The definition of a column of the joined tables. -/
def columnDef (schema : JoinSchema) (tables : List TableDef)
    (column : Ordinal) : Option ColumnDef := do
  let (position, place) ← schema.locate column
  let table ← tables[position]?
  table.column place

/-- The type of a column of the joined tables. -/
def columnType (schema : JoinSchema) (tables : List TableDef)
    (column : Ordinal) : Option ValueType :=
  (schema.columnDef tables column).map ColumnDef.type

end JoinSchema

/-! ## Requests that cannot be run -/

/-- Refuse a computed value that reads what is not there before it. -/
def checkComputed (schema : JoinSchema) (count : Nat) («at» : String)
    (index : Nat) (ordinal : Ordinal) : Except KernelError Unit :=
  let columns := schema.columns
  if ordinal < columns + index then
    .ok ()
  else if ordinal < columns + count then
    .error (.joinNotSupported
      ("computed value " ++ toString index ++ " of " ++ «at» ++ " names " ++
        debugColumn ordinal ++ ", which is computed value " ++
        toString (ordinal - columns) ++ " — itself or one produced after " ++
        "it. A computed value may read the ones before it, so move it later " ++
        "in the list"))
  else
    .error (.joinNotSupported
      ("computed value " ++ toString index ++ " of " ++ «at» ++ " names " ++
        debugColumn ordinal ++ ", which is outside the " ++
        toString columns ++ " columns of that joined row and its " ++
        toString index ++ " earlier computed value(s) — it would read as " ++
        "null on every row, which is one group rather than an error"))

/-- Refuse computed values that read what is not there, or mix scales. -/
def validateCompute (schema : JoinSchema) (tables : List TableDef)
    (compute : List Scalar) («at» : String) : Except KernelError Unit := do
  checkEach (fun entry =>
      checkEach (checkComputed schema compute.length «at» entry.2)
        (ascending entry.1.columns))
    compute.zipIdx
  let columnScale (ordinal : Ordinal) :=
    (schema.columnDef tables ordinal).bind ColumnDef.decimalScale
  match checkScales schema.columns columnScale [] compute with
  | .ok _ => .ok ()
  | .error refusal => .error (.decimalScale «at» refusal)

/-- Refuse an equality that names a column a side does not have. -/
def checkJoinKey (left right : TableDef) (key : JoinKey) : Except KernelError Unit :=
  let missing (table : TableDef) (column : Ordinal) := KernelError.joinNotSupported
      ("table `" ++ table.name ++ "` has no column " ++ debugColumn column)
  if (left.column key.left).isNone then
    .error (missing left key.left)
  else if (right.column key.right).isNone then
    .error (missing right key.right)
  else
    .ok ()

/-- Refuse a join that cannot be run. -/
def Join.validate (join : Join) (left right : TableDef) : Except KernelError Unit :=
  if join.on.isEmpty then
    .error (.joinNotSupported
      "a join needs at least one equality; a cross join is not offered")
  else do
    checkEach (checkJoinKey left right) join.on
    let schema := JoinSchema.of left right
    checkEach (fun column =>
        if (schema.resolve column).isSome then
          .ok ()
        else
          .error (.joinNotSupported
            ("the join condition names " ++ debugColumn column ++
              ", which is outside the " ++ toString schema.width ++
              " columns of `" ++ left.name ++ "` joined to `" ++ right.name ++
              "`")))
      (ascending join.having.columns)
    match join.having.columnTypeConflict
        (schema.columnType [left, right]) with
    | some (first, second) =>
        .error (.comparisonTypeMismatch
          (left.name ++ " joined to " ++ right.name) first second)
    | none =>
        validateCompute schema [left, right] join.compute
          ("`" ++ left.name ++ "` joined to `" ++ right.name ++ "`")

/-- The table at a position of a chain. -/
def tableAt (tables : List TableDef) (position : Nat) : Except KernelError TableDef :=
  match tables[position]? with
  | some table => .ok table
  | none =>
      .error (.joinNotSupported
        ("the chain reaches table " ++ toString position ++ " but only " ++
          toString tables.length ++ " were given"))

/-- Refuse an equality of a step with a table that is not read before it. -/
def checkStepKey (schema : JoinSchema) (table : TableDef) (position : Nat)
    (key : JoinKey) : Except KernelError Unit :=
  let step := "step " ++ toString position ++ " (`" ++ table.name ++ "`) "
  match schema.locate key.left with
  | none =>
      .error (.joinNotSupported
        (step ++ "names " ++ debugColumn key.left ++ ", which is outside " ++
          "the chain's " ++ toString schema.width ++ " columns"))
  | some (found, _) =>
      if position ≤ found then
        .error (.joinNotSupported
          (step ++ "joins to table " ++ toString found ++ ", which is not " ++
            "read until later in the chain"))
      else if (table.column key.right).isNone then
        .error (.joinNotSupported ("table `" ++ table.name ++ "` has no column " ++
            debugColumn key.right))
      else
        .ok ()

/-- Refuse a condition of a step on a table that is not read by then. -/
def checkStepColumn (schema : JoinSchema) (table : TableDef) (position : Nat)
    (column : Ordinal) : Except KernelError Unit :=
  let refusal := KernelError.joinNotSupported
      ("the condition on step " ++ toString position ++ " (`" ++ table.name ++
        "`) names " ++ debugColumn column ++ ", which is not read by that " ++
        "point in the chain")
  match schema.locate column with
  | some (found, _) => if found ≤ position then .ok () else .error refusal
  | none => .error refusal

/-- Refuse a step that cannot be run. -/
def JoinStep.validate (step : JoinStep) (tables : List TableDef)
    (schema : JoinSchema) (position : Nat) : Except KernelError Unit := do
  let table ← tableAt tables position
  if step.on.isEmpty then
    .error (.joinNotSupported ("step " ++ toString position ++ " (`" ++ table.name ++
        "`) has no equality; a cross join is not offered"))
  else do
    checkEach (checkStepKey schema table position) step.on
    checkEach (checkStepColumn schema table position) (ascending step.having.columns)
    match step.having.columnTypeConflict (schema.columnType tables) with
    | some (first, second) =>
        .error (.comparisonTypeMismatch
          ("step " ++ toString position ++ " of a chain ending at `" ++
            table.name ++ "`") first second)
    | none => .ok ()

/-- Refuse a chain that cannot be run. -/
def Chain.validate (chain : Chain) (tables : List TableDef)
    (schema : JoinSchema) : Except KernelError Unit :=
  if tables.length ≠ chain.steps.length + 1 then
    .error (.joinNotSupported
      (toString tables.length ++ " tables were given for a chain of " ++
        toString chain.steps.length ++ " steps; a chain needs one more " ++
        "table than it has steps"))
  else if chain.steps.isEmpty then
    .error (.joinNotSupported
      "a chain with no steps is a single-table query; use `execute`")
  else do
    checkEach (fun entry => entry.1.validate tables schema (entry.2 + 1))
      chain.steps.zipIdx
    validateCompute schema tables chain.compute
      ("the chain `" ++ "` ⋈ `".intercalate (tables.map TableDef.name) ++ "`")

/-! ## Joined rows -/

/-- A list of values of a length, cut or filled up with nulls. -/
def resize (values : List Value) (length : Nat) : List Value :=
  values.take length ++ List.replicate (length - values.length) .null

/-- Lay a row of the table at a position after those before it. -/
def flattenSide (schema : JoinSchema) (values : List Value) (position : Nat) :
    Option Row → List Value
  | some row =>
      let width := schema.widthAt position
      resize (values ++ row.values.take width) (schema.atPosition position width)
  | none => values ++ List.replicate (schema.widthAt position) .null

section

variable [Platform]

/-- The values that are computed of a joined row, each after those before it. -/
def computedValues (flat : Row) (compute : List Scalar) : List Value :=
  (appendComputed none 0 compute flat.values).drop flat.values.length

end

/-- A row of each side, either absent where nothing matched. -/
structure JoinedRow where
  left : Option Row
  right : Option Row
  computed : List Value := []

namespace JoinedRow

def matched (left right : Row) : JoinedRow := ⟨some left, some right, []⟩

def leftOnly (left : Row) : JoinedRow := ⟨some left, none, []⟩

def rightOnly (right : Row) : JoinedRow := ⟨none, some right, []⟩

/-- A row that is streamed and one that is stored, each on its side. -/
def pair (streamed stored : Row) : Side → JoinedRow
  | .left => matched streamed stored
  | .right => matched stored streamed

/-- A row that nothing matched, on its side. -/
def only (row : Row) : Side → JoinedRow
  | .left => leftOnly row
  | .right => rightOnly row

/-- The row in the joined space. -/
def flatten (row : JoinedRow) (schema : JoinSchema) : Row :=
  ⟨flattenSide schema (flattenSide schema [] 0 row.left) 1 row.right⟩

/-- The row in the joined space, and what was computed of it. -/
def flattenAppending (row : JoinedRow) (schema : JoinSchema) : Row :=
  ⟨(row.flatten schema).values ++ row.computed⟩

end JoinedRow

/-- A row of each table of a chain, absent where nothing matched. -/
structure ChainRow where
  rows : List (Option Row)
  computed : List Value := []

namespace ChainRow

/-- A row of the first table. -/
def start (row : Row) : ChainRow := ⟨[some row], []⟩

/-- A row of the next table after those before it. -/
def extended (row : ChainRow) (next : Option Row) : ChainRow := ⟨row.rows ++ [next], []⟩

/-- The row of the table at a position. -/
def atPosition (row : ChainRow) (position : Nat) : Option Row :=
  (row.rows[position]?).join

/-- A row of the table at a position that nothing before it matched. -/
def absentBefore (next : Row) (position : Nat) : ChainRow :=
  ⟨List.replicate position none ++ [some next], []⟩

/-- The row in the joined space. -/
def flatten (row : ChainRow) (schema : JoinSchema) : Row :=
  ⟨(List.range schema.widths.length).foldl (fun values position =>
    flattenSide schema values position (row.atPosition position)) []⟩

/-- The row in the joined space, and what was computed of it. -/
def flattenAppending (row : ChainRow) (schema : JoinSchema) : Row :=
  ⟨(row.flatten schema).values ++ row.computed⟩

end ChainRow

/-! ## Conditions -/

/-- Two rows, read in the joined space. -/
def joinedView (schema : JoinSchema) (left right : Option Row) : Columns :=
  fun ordinal =>
    match schema.resolve ordinal with
    | some (.left, place) => left.bind (fun row => row.get place)
    | some (.right, place) => right.bind (fun row => row.get place)
    | none => none

/-- A chain's row, and the one about to be appended, in the joined space. -/
def chainView (schema : JoinSchema) (row : ChainRow) (pending : Option Row) :
    Columns :=
  fun ordinal => do
    let (position, place) ← schema.locate ordinal
    let found ←
      if position = row.rows.length then pending else row.atPosition position
    found.get place

/-- The encoded values of some columns, unless one of them is null. -/
def joinValues (row : Columns) : List Ordinal → Option Bytes
  | [] => some []
  | column :: rest => do
      let value ← row column
      if value.isNull then
        none
      else do
        let others ← joinValues row rest
        return encodeValue .asc value ++ others

/-- The equalities of a join with the values of a row, unless one is null. -/
def probeFilter (row : Columns) (keys : List JoinKey) : Option Expr := do
  let conjuncts ← keys.mapM (fun key => do
    let value ← row key.left
    if value.isNull then
      none
    else
      return .compare key.right .eq value)
  return .all conjuncts

/-- What stands for the equalities of a join before a row is read. -/
def probeShape (keys : List JoinKey) : Expr :=
  .all (keys.map (fun key => .compare key.right .eq (.i64 0)))

section

variable [Platform]

/-- Whether a condition admits what it reads; one that is true reads nothing. -/
def admitsPair (having : Expr) (view : Columns) : Bool :=
  match having with
  | .true => true
  | _ => having.admitsOver view

end

end SlateOrm
