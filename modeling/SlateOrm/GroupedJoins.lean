import SlateOrm.JoinReads

namespace SlateOrm

/-!
# Grouped joins and chains

A grouped read folds the rows of a table, a join or a chain into groups.  What
it reads of each table is narrowed to the columns that the grouping and the join
itself take out of its rows, and the window of the read is left out.
-/

/-! ## Requests that cannot be grouped -/

/-- The columns that the keys and the aggregates of a grouping read. -/
def Grouping.named (grouping : Grouping) : List Ordinal :=
  grouping.aggregates.filterMap Aggregate.column ++ grouping.group

/-- Refuse a cursor on a read that returns groups rather than rows. -/
def noCursorOnGroups (table : TableDef) (query : PagedQuery) :
    Except KernelError Unit :=
  match query.after with
  | none => .ok ()
  | some _ =>
      .error (.invalidCursor table.name
        ("this read returns groups, not rows, and a cursor names a row. " ++
          "Resuming after one would drop every row before it from the " ++
          "aggregate and report the remainder as if it were the whole"))

/-- Refuse to group inputs that compute values of their own. -/
def noSideComputes (inputs : List PagedQuery) («at» : String) :
    Except KernelError Unit :=
  checkEach (fun entry =>
      if entry.1.compute.isEmpty then
        .ok ()
      else
        .error (.joinNotSupported
          ("input " ++ toString entry.2 ++ " of " ++ «at» ++ " computes " ++
            toString entry.1.compute.length ++ " value(s), and grouping " ++
            "flattens the inputs by declared table width — such a value has " ++
            "no slot in the flattened row, and the ordinal it would take " ++
            "belongs to the next table. Put it in `Join::compute` — " ++
            "`Chain::compute` for a chain — which is evaluated over the " ++
            "joined row and can read any input")))
    inputs.zipIdx

/-- Refuse a grouping that names what is not in the joined space. -/
def validateGrouping (schema : JoinSchema) (grouping : Grouping)
    («at» : String) : Except KernelError Unit :=
  checkEach (fun column =>
      if column < schema.width then
        .ok ()
      else
        .error (.joinNotSupported
          ("the grouping names " ++ debugColumn column ++ ", which is " ++
            "outside the " ++ toString schema.width ++ " ordinals of " ++
            «at» ++ " — a group key or an aggregate past the end reads as " ++
            "null on every row, which returns one group rather than an error")))
    (ascending grouping.named)

/-! ## Narrowed reads -/

/-- The query of a table that is read for some groups. -/
def PagedQuery.narrowed (query : PagedQuery) (aggregates : List Aggregate)
    (group : List Ordinal) : PagedQuery where
  filter := query.filter
  order := query.order
  projection := .columns (ascending (aggregates.filterMap Aggregate.column ++ group))
  hint := query.hint
  compute := query.compute
  includeDeleted := query.includeDeleted

/-- A query for some columns. -/
def PagedQuery.reading (query : PagedQuery) (columns : List Ordinal) :
    PagedQuery :=
  { query with projection := .columns (ascending columns) }

/-- The columns of the table at a position, of some in the joined space. -/
def JoinSchema.columnsOf (schema : JoinSchema) (position : Nat)
    (named : List Ordinal) : List Ordinal :=
  named.filterMap (fun ordinal =>
    match schema.locate ordinal with
    | some (found, place) => if found = position then some place else none
    | none => none)

/-- The columns in the joined space that a join reads for a grouping. -/
def Join.wanted (join : Join) (grouping : Grouping) : List Ordinal :=
  grouping.named ++ join.having.columns ++ join.compute.flatMap Scalar.columns

/-- The join that is run for a grouping: each side reads what is needed. -/
def narrowedJoin (join : Join) (schema : JoinSchema) (grouping : Grouping) :
    Join :=
  let wanted := join.wanted grouping
  { join with
    left := join.left.reading (schema.columnsOf 0 wanted ++ join.columns .left)
    right := join.right.reading (schema.columnsOf 1 wanted ++ join.columns .right)
    limit := none
    offset := 0 }

/-- The columns in the joined space that a chain reads for a grouping. -/
def Chain.wanted (chain : Chain) (grouping : Grouping) : List Ordinal :=
  grouping.named ++ chain.compute.flatMap Scalar.columns ++
    chain.steps.flatMap (fun step => step.having.columns ++ step.on.map JoinKey.left)

/-- The chain that is run for a grouping: each table is read as needed. -/
def narrowedChain (chain : Chain) (schema : JoinSchema) (grouping : Grouping) : Chain :=
  let wanted := chain.wanted grouping
  let reading (query : PagedQuery) (position : Nat) (own : List Ordinal) :=
    if position < schema.widths.length then
      query.reading (schema.columnsOf position wanted ++ own)
    else
      query
  { chain with
    first := reading chain.first 0 []
    steps := chain.steps.zipIdx.map (fun entry =>
      { entry.1 with
        query := reading entry.1.query (entry.2 + 1) (entry.1.on.map JoinKey.right) })
    limit := none
    offset := 0 }

/-! ## Groups -/

namespace JoinReads

variable
  (reads : JoinReads)
  (context : SecurityContext)

/-- Plan a read of a table for a grouping. -/
def planGrouped (table : TableDef) (query : PagedQuery)
    (grouping : Grouping) : Except KernelError (PagedQuery × Plan) := do
  noCursorOnGroups table query
  let narrowed := query.narrowed grouping.aggregates grouping.group
  let plan ← reads.planQuery context table narrowed
  return (narrowed, plan)

/-- Choose how to join two tables for a grouping. -/
def planGroupedJoin (left right : TableDef) (join : Join)
    (grouping : Grouping) : Except KernelError (Join × JoinPlan) := do
  let narrowed := narrowedJoin join (.of left right) grouping
  let plan ← reads.planJoin context left right narrowed
  return (narrowed, plan)

/-- Choose how to run a chain for a grouping. -/
def planGroupedChain (tables : List TableDef) (chain : Chain)
    (grouping : Grouping) (schema : JoinSchema) :
    Except KernelError (Chain × ChainPlan) := do
  let narrowed := narrowedChain chain schema grouping
  let plan ← reads.planChain context tables narrowed schema
  return (narrowed, plan)

variable [Platform] (snapshot : Snapshot)

/-- Group what a cursor yields. -/
def groupsOf {α : Type} (grouping : Grouping) (flatten : α → Row)
    (rows : Cursor α) : Except KernelError (List Group) := do
  let groups ← rows.foldM (fun groups row =>
      Grouper.push grouping reads.limits groups (flatten row)) []
  return Grouper.finish grouping groups

/-- Group the rows that a query selects. -/
def grouped (table : TableDef) (query : PagedQuery) (grouping : Grouping) :
    Except KernelError (List Group) := do
  let (narrowed, _) ← reads.planGrouped context table query grouping
  let rows ← reads.execute snapshot context table narrowed
  reads.groupsOf grouping id rows

/-- Group the rows that a join produces. -/
def groupedJoin (left right : TableDef) (join : Join) (grouping : Grouping) :
    Except KernelError (List Group) := do
  let schema := (JoinSchema.of left right).computing join.compute.length
  let name := "`" ++ left.name ++ "` joined to `" ++ right.name ++ "`"
  noSideComputes [join.left, join.right] name
  validateGrouping schema grouping name
  let (narrowed, plan) ← reads.planGroupedJoin context left right join grouping
  let rows ← reads.openJoin snapshot context left right narrowed plan
  reads.groupsOf grouping (fun row => row.flattenAppending schema) rows

/-- Group the rows that a chain produces. -/
def groupedChain (tables : List TableDef) (chain : Chain)
    (grouping : Grouping) : Except KernelError (List Group) := do
  let schema := (JoinSchema.overTables tables).computing chain.compute.length
  noSideComputes chain.queries "a grouped chain"
  validateGrouping schema grouping "a grouped chain"
  let (narrowed, plan) ← reads.planGroupedChain context tables chain grouping schema
  let rows ← reads.runChain snapshot context tables narrowed plan schema
  reads.groupsOf grouping (fun row => row.flattenAppending schema)
    (Cursor.prepend rows .exhausted)

end JoinReads

end SlateOrm
