import SlateOrm.WindowedReads

namespace SlateOrm

open List Keys MatchContext

/-!
# Point gets and scans

A filter that names primary keys is answered by reading them one by one.  The
keys are read in their order, whichever way the query is scanned, so a table
scan returns the same rows in the same order only where the direction does not
show.
-/

/-! ## Plans over rows -/

/-- The columns that a filter fixes. -/
def Expr.pinned (filter : Expr) : List Ordinal :=
  (collectConstraints filter.conjuncts).pinned

variable {keys : List (List Value)} {range : KeyRange}

section

variable
  {table : TableDef}
  {filter : Expr}
  {query : Query}
  {stats : TableStats}
  {hidden : List Ordinal}
  {plan : Plan}
  (isPlan : plan = query.planned table filter stats hidden)

include isPlan

end

variable {constraints : Constraints}

section

variable
  [Platform]
  {catalog : Catalog}
  {wellFormed : catalog.WellFormed}
  {snapshot : Snapshot}
  {table : TableDef}
  {tableRows : List Row}
  {filter : Expr}
  {query : Query}
  {stats : TableStats}
  {hidden : List Ordinal}
  {plan : Plan}

variable
  (readable : ReadableTable wellFormed snapshot table tableRows)
  (isPlan : plan = query.planned table filter stats hidden)

include readable isPlan

end

/-! ## Agreement -/

section

variable
  [Platform]
  (heap : BinaryHeap)
  (limits : ExecutionLimits)
  (window : RowWindow)

/-- The values that are shown of a row. -/
def Row.shown (hidden : List Ordinal) (row : Row) : List Value :=
  (conceal row hidden).canonical

/-- The values that are returned of the rows that a path yields. -/
def returned (sort : Option (List SortKey)) (hidden : List Ordinal)
    (rows : List Row) : Except KernelError (List (List Value)) :=
  (served heap limits window sort rows).map (List.map (Row.shown hidden))

/-- The values that a plan returns when it is carried out. -/
def Plan.returns (plan : Plan) (snapshot : Snapshot) (table : TableDef)
    (query : Query) : Except KernelError (List (List Value)) :=
  (openWindowed heap limits snapshot table plan query window >>=
    Cursor.collect).map (List.map Row.canonical)

variable
  {heap : BinaryHeap}
  {limits : ExecutionLimits}
  {window : RowWindow}

variable {rows : List Row}

variable {hidden : List Ordinal}

variable
  {catalog : Catalog}
  {wellFormed : catalog.WellFormed}
  {snapshot : Snapshot}
  {table : TableDef}
  {tableRows : List Row}

end

/-! ## Scores by their keys -/

section

local instance namedPlatform : Platform := scorePlatform

end

end SlateOrm
