import SlateOrm.Executor
import Mathlib.Data.Finset.Sort

namespace SlateOrm

/-!
# Secured reads

Every read of a caller goes through the same gate: its grants, the columns it
may see, and the filter its policies put on the rows.
-/

/-- The row under a primary key, whoever asks. -/
def readRowUnchecked (snapshot : Snapshot) (table : TableDef)
    (primaryKey : List Value) : Except KernelError (Option Row) :=
  match snapshot.get (Keys.rowKey table primaryKey) with
  | none => .ok none
  | some body => do
      let row ← liftSchema (decodeRow table primaryKey body)
      return some row

/-- Decimal columns are combined at one scale. -/
def checkDecimalScales (table : TableDef) (compute : List Scalar) :
    Except KernelError Unit :=
  let columnScale (ordinal : Ordinal) :=
    (table.column ordinal).bind ColumnDef.decimalScale
  match checkScales table.columns.length columnScale [] compute with
  | .ok _ => .ok ()
  | .error refusal => .error (.decimalScale table.name refusal)

/-- Refuse a query that names a column the caller does not read. -/
def refuseUnreadable (table : TableDef) (query : Query)
    (readable : ColumnSet) (action : String) : Except KernelError Unit :=
  let projected :=
    match query.projection with
    | .all => []
    | .columns ordinals => ordinals
  let referenced :=
    query.filter.columns ++ projected ++ query.sort.map SortKey.column ++
      query.compute.flatMap Scalar.columns
  if referenced.any (fun column =>
      decide (column < table.columns.length ∧ column ∉ readable)) then
    .error (.columnsWithheld table.name action)
  else
    .ok ()

/-- A query that asks for every column asks for those the caller reads. -/
def readableProjection (query : Query) (readable : ColumnSet) : Query :=
  match query.projection with
  | .all => { query with projection := .columns (readable.sort) }
  | .columns _ => query

/-- What reads go through. -/
structure SecuredReads where
  security : SecurityCatalog
  statistics : TableDef → TableStats
  limits : ExecutionLimits

namespace SecuredReads

/-- Whether a caller may read, and the retired rows too if it asks for them. -/
def authorizeRead (reads : SecuredReads) (context : SecurityContext)
    (table : TableDef) (query : Query) : Except KernelError Unit := do
  reads.security.authorize context table .read
  if query.includeDeleted ∧ table.softDelete.isSome then
    reads.security.authorize context table .readDeleted

/-- Plan a query under the filter of its caller. -/
def planSecured (reads : SecuredReads) (context : SecurityContext)
    (table : TableDef) (query : Query) : Except KernelError Plan := do
  reads.authorizeRead context table query
  checkDecimalScales table query.compute
  match query.filter.columnTypeConflict
      (fun column => (table.column column).map ColumnDef.type) with
  | some (left, right) => .error (.comparisonTypeMismatch table.name left right)
  | none => do
      let rowFilter ← reads.security.rowFilterWith context table .read
          (if query.includeDeleted then .visible else .hidden)
      return planHinted table (query.filter.andThen rowFilter) query.order
        query.projection (reads.statistics table) query.sort query.hint
        query.compute

/-- Plan a query of a caller. -/
def plan (reads : SecuredReads) (context : SecurityContext)
    (table : TableDef) (query : Query) : Except KernelError Plan := do
  reads.security.authorize context table .read
  match reads.security.readable context table with
  | none => reads.planSecured context table query
  | some readable => do
      refuseUnreadable table query readable "this read"
      let plan ← reads.planSecured context table (readableProjection query readable)
      return { plan with concealed := reads.security.concealed context table }

variable [Platform]

section

variable
  (reads : SecuredReads) (snapshot : Snapshot) (context : SecurityContext)
  (table : TableDef)

/-- The row under a primary key, if the caller sees it. -/
def get (primaryKey : List Value) : Except KernelError (Option Row) := do
  reads.security.authorize context table .read
  let filter ← reads.security.rowFilter context table .read
  let concealed := reads.security.concealed context table
  let row ← readRowUnchecked snapshot table primaryKey
  return (row.filter filter.admits).map (fun row => conceal row concealed)

/-- The rows of a query of a caller. -/
def execute (query : Query) : Except KernelError (Cursor Row) := do
  let plan ← reads.plan context table query
  openCursor reads.limits snapshot table plan query

/-- The whole rows that a caller's write is about. -/
def executeForWrite (query : Query) : Except KernelError (Cursor Row) := do
  reads.security.authorize context table .read
  match reads.security.readable context table with
  | some readable => refuseUnreadable table query readable "this write's predicate"
  | none => pure ()
  let plan ← reads.planSecured context table query
  openCursor reads.limits snapshot table plan query

end

end SecuredReads

end SlateOrm
