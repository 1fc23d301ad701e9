import SlateOrm.Joins

namespace SlateOrm

/-!
# Reads of joins and chains

Each table of a join is read as a query of its own, under the rights of the
caller and with its own filter.  Two sides are combined by a hash table of one
of them or by a loop over the left one, whichever is expected to cost less; a
chain holds the rows it has joined so far and adds one table after the other.
-/

/-! ## Plans -/

/--
What reads of several tables go through.  Of the estimates there is what plans
depend on: which side of a join is no larger, and whether a loop costs less than
a hash table.
-/
structure JoinReads extends SecuredReads where
  heap : BinaryHeap
  heap_lawful : heap.Lawful
  leftNoLarger : Plan → Plan → Bool
  loopCheaper : List TableDef → Join → Plan → Plan → Plan → Bool
  stepLoopCheaper : List TableDef → Chain → List Plan → Plan → Plan → Bool
  /-- The order in which a hash map gives out its keys. -/
  hashOrder : List Bytes → List Bytes
  hashOrder_perm : ∀ keys, (hashOrder keys).Perm keys

/-- How a join is carried out. -/
structure JoinPlan where
  algorithm : JoinAlgorithm
  left : Plan
  right : Plan

/-- How a step of a chain is carried out. -/
structure JoinStepPlan where
  plan : Plan
  algorithm : JoinAlgorithm

/-- How a chain is carried out. -/
structure ChainPlan where
  first : Plan
  steps : List JoinStepPlan

/-- A query that is asked for the rows that agree with another one. -/
def PagedQuery.bound (query : PagedQuery) (filter : Expr) : PagedQuery :=
  { query with filter := query.filter.andThen filter }

namespace JoinReads

variable
  (reads : JoinReads)
  (context : SecurityContext)

/-- Plan a query of one of the tables. -/
def planQuery (table : TableDef) (query : PagedQuery) : Except KernelError Plan :=
  query.plan reads.toSecuredReads context table

/-- How two sides are combined, when they and a probe are read by some plans. -/
def joinAlgorithm (tables : List TableDef) (join : Join)
    (left right probe : Plan) : Except KernelError JoinAlgorithm :=
  let build : Side := if join.paging then
      .right
    else if reads.leftNoLarger left right then
      .right
    else
      .left
  let loopPossible := !join.joinType.preserves .right
  match join.force with
  | some (.hash build) => .ok (.hash build)
  | some .nestedLoop =>
      if loopPossible then
        .ok .nestedLoop
      else
        .error (.joinNotSupported
          ("a nested loop cannot preserve unmatched right rows; a right or " ++
            "full outer join needs a hash join"))
  | none =>
      if loopPossible && reads.loopCheaper tables join left right probe then
        .ok .nestedLoop
      else
        .ok (.hash build)

/-- Choose how to join two tables. -/
def planJoin (left right : TableDef) (join : Join) : Except KernelError JoinPlan := do
  join.validate left right
  let leftPlan ← reads.planQuery context left join.left
  let rightPlan ← reads.planQuery context right join.right
  let probe ← reads.planQuery context right (join.right.bound (probeShape join.on))
  let algorithm ← reads.joinAlgorithm [left, right] join leftPlan rightPlan probe
  return ⟨algorithm, leftPlan, rightPlan⟩

/-- How a step of a chain adds its table, after the plans of those before. -/
def stepAlgorithm (tables : List TableDef) (chain : Chain) (step : JoinStep)
    (position : Nat) (table : TableDef) (earlier : List Plan)
    (plan probe : Plan) : Except KernelError JoinAlgorithm :=
  let loopPossible := !step.joinType.preserves .right
  match step.force with
  | some (.hash build) => .ok (.hash build)
  | some .nestedLoop =>
      if loopPossible then
        .ok .nestedLoop
      else
        .error (.joinNotSupported
          ("step " ++ toString position ++ " (`" ++ table.name ++
            "`) preserves unmatched rows of that table, which a nested loop " ++
            "cannot do"))
  | none =>
      if loopPossible && reads.stepLoopCheaper tables chain earlier plan probe then
        .ok .nestedLoop
      else
        .ok (.hash .right)

/-- Choose how to run steps of a chain, from a position on. -/
def planSteps (tables : List TableDef) (chain : Chain) :
    Nat → List Plan → List JoinStep → Except KernelError (List JoinStepPlan)
  | _, _, [] => .ok []
  | position, earlier, step :: rest => do
      let table ← tableAt tables position
      let plan ← reads.planQuery context table step.query
      let probe ← reads.planQuery context table (step.query.bound (probeShape step.on))
      let algorithm ←
        reads.stepAlgorithm tables chain step position table earlier plan probe
      let later ← planSteps tables chain (position + 1) (earlier ++ [plan]) rest
      return ⟨plan, algorithm⟩ :: later

/-- Choose how to run a chain of joins. -/
def planChain (tables : List TableDef) (chain : Chain)
    (schema : JoinSchema) : Except KernelError ChainPlan := do
  chain.validate tables schema
  let table ← tableAt tables 0
  let first ← reads.planQuery context table chain.first
  let steps ← reads.planSteps context tables chain 1 [first] chain.steps
  return ⟨first, steps⟩

end JoinReads

/-! ## Cursors -/

namespace Cursor

variable {α β : Type}

/-- Results before those of a cursor. -/
def prepend (items : List α) (rest : Cursor α) : Cursor α := items.foldr .yields rest

/-- Results that were made ahead of those of a cursor, unless that failed. -/
def prependOr (items : Except KernelError (List α)) (rest : Cursor α) : Cursor α :=
  match items with
  | .error error => .failed error
  | .ok items => rest.prepend items

/-- Take a number of results, if there are as many. -/
def pull : Nat → Cursor α → Except KernelError (List α × Cursor α)
  | 0, cursor => .ok ([], cursor)
  | _ + 1, .exhausted => .ok ([], .exhausted)
  | _ + 1, .failed error => .error error
  | count + 1, .yields item rest => do
      let (items, rest) ← pull count rest
      return (item :: items, rest)

/-- Fold the results, until one of them or a step fails. -/
def foldM (step : β → α → Except KernelError β) : β → Cursor α → Except KernelError β
  | state, .exhausted => .ok state
  | _, .failed error => .error error
  | state, .yields item rest => do
      let state ← step state item
      foldM step state rest

end Cursor

/-! ## Hash joins -/

/-- The rows of the side that is held, those with a null apart. -/
structure BuildTable where
  rows : List (Bytes × Row)
  nulls : List Row

namespace BuildTable

/-- Hold the rows of a cursor, unless there are too many. -/
def build (cursor : Cursor Row) (columns : List Ordinal) (limit : Nat)
    (table : TableDef) (keepUnmatched : Bool) :
    Except KernelError BuildTable := do
  let rows ← cursor.collectAtMost (.joinBuildTooLarge table.name limit) limit
  return {
    rows := rows.filterMap (fun row =>
      (joinValues row.get columns).map (fun key => (key, row)))
    nulls := if keepUnmatched then
        rows.filter (fun row => (joinValues row.get columns).isNone)
      else
        [] }

/-- The rows that are held under a key. -/
def get (table : BuildTable) (key : Bytes) : List Row :=
  (table.rows.filter (fun entry => entry.1 == key)).map Prod.snd

/-- The rows that nothing was paired with, of those held under each key. -/
def unmatched (table : BuildTable) (hashOrder : List Bytes → List Bytes)
    (hit : List (Bytes × Nat)) : List Row :=
  table.nulls ++ (hashOrder (table.rows.map Prod.fst).dedup).flatMap (fun key =>
      ((table.get key).zipIdx.filter (fun entry =>
        !hit.contains (key, entry.2))).map Prod.fst)

end BuildTable

section

variable [Platform]

/-- Whether a condition admits a pair of rows. -/
def JoinedRow.admitted (row : JoinedRow) (having : Expr) (schema : JoinSchema) : Bool :=
  admitsPair having (joinedView schema row.left row.right)

/-- What is held under the key of a row that is streamed, with its places. -/
def bucketOf (table : BuildTable) : Option Bytes → List (Bytes × Row × Nat)
  | none => []
  | some key => (table.get key).zipIdx.map (fun entry => (key, entry))

/-- Stream the rows of one side past those of the other that are held. -/
def hashRows (join : Join) (schema : JoinSchema)
    (hashOrder : List Bytes → List Bytes) (build : Side)
    (table : BuildTable) :
    List (Bytes × Nat) → Cursor Row → Cursor JoinedRow
  | hit, .exhausted =>
      if join.joinType.preserves build then
        Cursor.prepend
          ((table.unmatched hashOrder hit).map (fun row => .only row build))
          .exhausted
      else
        .exhausted
  | _, .failed error => .failed error
  | hit, .yields row rest =>
      let paired :=
        (bucketOf table (joinValues row.get (join.columns build.other))).filter
          (fun entry =>
            (JoinedRow.pair row entry.2.1 build.other).admitted join.having schema)
      let shown : List JoinedRow := if paired.isEmpty then
          -- A row whose pairs were all rejected has matched nothing.
          if join.joinType.preserves build.other then
            [.only row build.other]
          else
            []
        else
          paired.map (fun entry => .pair row entry.2.1 build.other)
      Cursor.prepend shown (hashRows join schema hashOrder build table
          (hit ++ paired.map (fun entry => (entry.1, entry.2.2))) rest)

/-! ## Nested loops -/

/-- How many probes a nested loop has under way. -/
def PROBE_CONCURRENCY : Nat := 16

/-- What a left row and those that were fetched for it are joined to. -/
def loopRows (join : Join) (schema : JoinSchema) (left : Row)
    (fetched : List Row) : List JoinedRow :=
  let paired := (fetched.map (JoinedRow.matched left)).filter
      (fun row => row.admitted join.having schema)
  if paired.isEmpty then
    if join.joinType.preserves .left then [.leftOnly left] else []
  else
    paired

/--
Return what the row queued first is joined to, then read one more row to keep
the queue full.  A row that cannot be read ends the loop before those queued
ahead of it.
-/
def drainLoop (probe : Row → Except KernelError (List JoinedRow)) :
    Cursor Row → List Row → Cursor JoinedRow
  | .exhausted, queue =>
      queue.foldr (fun row => Cursor.prependOr (probe row)) .exhausted
  | .failed _, [] => .exhausted
  | .failed error, row :: _ => Cursor.prependOr (probe row) (.failed error)
  | .yields _ _, [] => .exhausted
  | .yields next rest, row :: queue =>
      Cursor.prependOr (probe row) (drainLoop probe rest (queue ++ [next]))

namespace JoinReads

variable
  (reads : JoinReads)
  (snapshot : Snapshot)
  (context : SecurityContext)

/-- The rows of a query of one of the tables. -/
def execute (table : TableDef) (query : PagedQuery) : Except KernelError (Cursor Row) :=
  query.execute reads.toSecuredReads context table reads.heap snapshot

/-- The rows that agree with another one, if any can. -/
def probe (table : TableDef) (query : PagedQuery) :
    Option Expr → Except KernelError (List Row)
  | none => .ok []
  | some filter => do
      let rows ← reads.execute snapshot context table (query.bound filter)
      rows.collect

/-- The pairs of a join, in the order in which a plan makes them. -/
def joinState (left right : TableDef) (join : Join) (plan : JoinPlan) :
    Except KernelError (Cursor JoinedRow) :=
  let schema := JoinSchema.of left right
  match plan.algorithm with
  | .nestedLoop => do
      let outer ← reads.execute snapshot context left join.left
      return match outer.pull PROBE_CONCURRENCY with
        | .error error => .failed error
        | .ok (queue, rest) =>
            drainLoop (fun row => do
              let fetched ← reads.probe snapshot context right join.right
                  (probeFilter row.get join.on)
              return loopRows join schema row fetched) rest queue
  | .hash build => do
      let tableOf : Side → TableDef
        | .left => left
        | .right => right
      let building ← reads.execute snapshot context (tableOf build) (join.query build)
      let built ← BuildTable.build building (join.columns build) join.buildLimit
          (tableOf build) (join.joinType.preserves build)
      let streamed ← reads.execute snapshot context (tableOf build.other)
          (join.query build.other)
      return hashRows join schema reads.hashOrder build built [] streamed

/-- The rows of a join, windowed, with what is computed of them. -/
def openJoin (left right : TableDef) (join : Join) (plan : JoinPlan) :
    Except KernelError (Cursor JoinedRow) := do
  let rows ← reads.joinState snapshot context left right join plan
  return (rows.withWindow ⟨join.limit, join.offset⟩).map (fun row =>
    { row with
      computed := computedValues (row.flatten (.of left right)) join.compute })

/-! ## Chains -/

/-- Turn a paged chain into the one that is run: a page of its first table. -/
def pagedChain (chain : Chain) (first : TableDef) : Except KernelError Chain :=
  -- The blanks are those of the source, whose lines are not joined.
  let blanks := String.ofList (List.replicate 14 ' ')
  if !chain.paging then
    .ok chain
  else
    match chain.steps.findIdx?
        (fun step => step.joinType.preserves .right) with
    | some index =>
        .error (.invalidCursor first.name
          ("step " ++ toString (index + 1) ++ " is a right or full outer " ++
            "join, which keeps rows that match nothing earlier" ++ blanks ++
            "in the chain — and a page of a chain is a page of its first " ++
            "table, so those rows" ++ blanks ++ "belong to no page"))
    | none =>
        if chain.offset ≠ 0 then
          .error (.invalidCursor first.name
            ("counting and keying are the two ways to say where a page " ++
              "starts, and this request" ++ blanks ++ "carries both. Drop " ++
              "the offset"))
        else
          match chain.limit with
          | none =>
              .error (.invalidCursor first.name
                ("a page needs a size, and a chain with no limit is the " ++
                  "whole chain"))
          | some limit =>
              .ok { chain with
                first :=
                  { chain.first with
                    limit := some limit
                    after := chain.after
                    paging := true }
                limit := none }

/-- Refuse to hold more rows than a chain may. -/
def checkSize (rows : List ChainRow) (limit : Nat) (table : TableDef) :
    Except KernelError Unit :=
  if limit < rows.length then
    .error (.joinBuildTooLarge table.name limit)
  else
    .ok ()

/-- The rows held so far that a row of the next table is paired with. -/
def stepMatches (step : JoinStep) (schema : JoinSchema)
    (accumulated : List ChainRow) (next : Row) : List (ChainRow × Nat) :=
  match joinValues next.get (step.on.map JoinKey.right) with
  | none => []
  | some key =>
      accumulated.zipIdx.filter (fun entry =>
        joinValues (chainView schema entry.1 none)
            (step.on.map JoinKey.left) == some key &&
          admitsPair step.having (chainView schema entry.1 (some next)))

/-- Read the next table once, and pair its rows with those held so far. -/
def hashStep (step : JoinStep) (schema : JoinSchema) (position : Nat)
    (accumulated : List ChainRow) (rows : List Row) : List ChainRow :=
  let pairs (next : Row) := stepMatches step schema accumulated next
  let streamed := rows.flatMap (fun next =>
      if (pairs next).isEmpty then
        if step.joinType.preserves .right then
          [.absentBefore next position]
        else
          []
      else
        (pairs next).map (fun entry => entry.1.extended (some next)))
  let kept := if step.joinType.preserves .left then
      (accumulated.zipIdx.filter (fun entry =>
        rows.all (fun next => !((pairs next).map Prod.snd).contains entry.2))).map
        (fun entry => entry.1.extended none)
    else
      []
  streamed ++ kept

/-- What a row held so far and those that were fetched for it are joined to. -/
def probeStepRows (step : JoinStep) (schema : JoinSchema) (row : ChainRow)
    (fetched : List Row) : List ChainRow :=
  let paired := fetched.filter (fun next =>
      admitsPair step.having (chainView schema row (some next)))
  if paired.isEmpty then
    if step.joinType.preserves .left then [row.extended none] else []
  else
    paired.map (fun next => row.extended (some next))

/-- Add the table of a step to the rows held so far. -/
def runStep (table : TableDef) (step : JoinStep) (schema : JoinSchema)
    (position : Nat) (accumulated : List ChainRow) :
    JoinAlgorithm → Except KernelError (List ChainRow)
  | .nestedLoop => do
      let joined ← accumulated.mapM (fun row => do
        let fetched ← reads.probe snapshot context table step.query
            (probeFilter (chainView schema row none) step.on)
        return probeStepRows step schema row fetched)
      return joined.flatten
  | .hash _ => do
      let cursor ← reads.execute snapshot context table step.query
      let rows ← cursor.collect
      return hashStep step schema position accumulated rows

/-- Add the tables of steps, from a position on, to the rows held so far. -/
def runSteps (tables : List TableDef) (schema : JoinSchema) (limit : Nat) :
    Nat → List JoinStep → List JoinStepPlan → List ChainRow →
      Except KernelError (List ChainRow)
  | _, [], _, accumulated => .ok accumulated
  | position, step :: rest, plans, accumulated => do
      let table ← tableAt tables position
      let algorithm :=
        match plans.head? with
        | some plan => plan.algorithm
        | none => .hash .right
      let accumulated ←
        reads.runStep snapshot context table step schema position accumulated algorithm
      checkSize accumulated limit table
      runSteps tables schema limit (position + 1) rest plans.tail accumulated

/-- Run a chain. -/
def runChain (tables : List TableDef) (chain : Chain) (plan : ChainPlan)
    (schema : JoinSchema) : Except KernelError (List ChainRow) := do
  let first ← tableAt tables 0
  let chain ← pagedChain chain first
  let cursor ← reads.execute snapshot context first chain.first
  let started ← cursor.collect
  let accumulated := started.map ChainRow.start
  checkSize accumulated chain.buildLimit first
  let rows ← reads.runSteps snapshot context tables schema chain.buildLimit 1
      chain.steps plan.steps accumulated
  return (RowWindow.of ⟨chain.limit, chain.offset⟩ rows).map (fun row =>
    { row with
      computed := computedValues (row.flatten schema) chain.compute })

end JoinReads

end

end SlateOrm
