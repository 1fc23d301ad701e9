import SlateOrm.Planner
import SlateOrm.MemoryStore

namespace SlateOrm

/-!
# The executor

A plan is carried out by walking its keys and turning what is stored under
them into rows: decoded from a body, or rebuilt from an index entry that holds
all that is needed.  Rows come out one at a time, and a failure ends the walk,
so a reader that stops early does not see a failure further on.
-/

/-! ## Cursors -/

/-- Results that are made one after the other, until a failure. -/
inductive Cursor (α : Type) where
  | exhausted
  | failed (error : KernelError)
  | yields (item : α) (rest : Cursor α)

namespace Cursor

variable {α β : Type}

/-- The results that a function makes of the elements of a list. -/
def ofList (make : α → Except KernelError (Option β)) : List α → Cursor β
  | [] => .exhausted
  | value :: rest =>
      match make value with
      | .error error => .failed error
      | .ok none => ofList make rest
      | .ok (some item) => .yields item (ofList make rest)

/-- Change every result. -/
def map (change : α → β) : Cursor α → Cursor β
  | .exhausted => .exhausted
  | .failed error => .failed error
  | .yields item rest => .yields (change item) (rest.map change)

/-- All results. -/
def collect : Cursor α → Except KernelError (List α)
  | .exhausted => .ok []
  | .failed error => .error error
  | .yields item rest => do
      let items ← rest.collect
      return item :: items

/-- All results, unless there are more than a number. -/
def collectAtMost (refusal : KernelError) : Nat → Cursor α → Except KernelError (List α)
  | _, .exhausted => .ok []
  | _, .failed error => .error error
  | 0, .yields _ _ => .error refusal
  | limit + 1, .yields item rest => do
      let items ← rest.collectAtMost refusal limit
      return item :: items

end Cursor

/-! ## Rows -/

/-- What a reader may spend. -/
structure ExecutionLimits where
  maxGroups : Nat := 1000000
  maxDistinct : Nat := 1000000
  maxSortRows : Nat := 5000000
  maxWindowRows : Nat := 5000000
  maxInValues : Nat := 10000

/-- A row as it is stored. -/
structure RawRow where
  primaryKey : List Value
  body : Bytes

/-- No restriction, when the columns are all there are. -/
def wanted (columns : ColumnSet) (table : TableDef) : Option ColumnSet :=
  if columns.coversAll table.columns.length then none else some columns

section

variable [Platform]

/-- Append the computed columns, the one an index held taken from there. -/
def appendComputed (fromEntry : Option (Nat × Value)) :
    Nat → List Scalar → List Value → List Value
  | _, [], values => values
  | position, scalar :: rest, values =>
      let value :=
        match fromEntry with
        | some (held, value) =>
            if held = position then
              value
            else
              scalar.evaluate (fun ordinal => values[ordinal]?)
        | none => scalar.evaluate (fun ordinal => values[ordinal]?)
      appendComputed fromEntry (position + 1) rest (values ++ [value])

/-- Append the computed columns and blank what was read only for them. -/
def extendRow (row : Row) (compute : List Scalar)
    (transient : List Ordinal) (fromEntry : Option (Nat × Value)) : Row :=
  if compute.isEmpty then
    row
  else
    ⟨transient.foldl (fun values ordinal => values.set ordinal .null)
      (appendComputed fromEntry 0 compute row.values)⟩

/-- How rows are made of what is stored. -/
structure RowShape where
  table : TableDef
  residual : Expr
  filterColumns : ColumnSet
  decodeColumns : ColumnSet
  needsSecondPhase : Bool
  compute : List Scalar
  transient : List Ordinal
  fromEntry : Option Nat

/-- The row of a stored one, if the filter admits it. -/
def materialise (shape : RowShape) (raw : RawRow) : Except KernelError (Option Row) :=
  let decodeTo (columns : ColumnSet) :=
    liftSchema (decodeRowColumns shape.table raw.primaryKey raw.body
      (wanted columns shape.table))
  if !shape.compute.isEmpty then do
    let decoded ← decodeTo shape.decodeColumns
    let extended := extendRow decoded shape.compute shape.transient none
    return if shape.residual.admits extended then some extended else none
  else if shape.needsSecondPhase then do
    let decoded ← decodeTo shape.filterColumns
    if shape.residual.admits decoded then do
      let row ← decodeTo shape.decodeColumns
      return some row
    else
      return none
  else do
    let decoded ← decodeTo shape.decodeColumns
    return if shape.residual.admits decoded then some decoded else none

/-- Put the indexed values that are wanted in their places. -/
def fillIndexed (index : IndexDef) (indexed : List Value)
    (wanted : ColumnSet) (values : List Value) : List Value :=
  (index.columns.zip indexed).foldl (fun values pair =>
      if pair.1.ordinal ∈ wanted then
        values.set pair.1.ordinal pair.2
      else
        values)
    values

/-- The row an index entry holds. -/
def rowFromIndexEntry (table : TableDef) (index : IndexDef)
    (indexed primaryKey : List Value) (wanted : ColumnSet) : Row :=
  ⟨fillKey table primaryKey (fillIndexed index indexed wanted
      (List.replicate table.columns.length .null))⟩

/-- The row of an index entry that holds it, if the filter admits it. -/
def materialiseEntry (shape : RowShape) (index : IndexDef)
    (entry : KeyValue) : Except KernelError (Option Row) := do
  let (indexed, primaryKey) ←
    Keys.decodeIndexEntry shape.table index entry.key entry.value
  let row := rowFromIndexEntry shape.table index indexed primaryKey shape.decodeColumns
  let held := do
    let position ← shape.fromEntry
    let value ← indexed.head?
    return (position, value)
  let row := extendRow row shape.compute shape.transient held
  return if shape.residual.admits row then some row else none

/-! ## Sources -/

/-- A transaction's view of the store. -/
abbrev Snapshot := MemoryStore.Transaction

/-- How many rows are fetched ahead of the one returned. -/
def DEFAULT_PREFETCH : Nat := 16

/-- The row of a stored key and body, if the filter admits it. -/
def materialiseStored (shape : RowShape) (entry : KeyValue) :
    Except KernelError (Option Row) := do
  let primaryKey ← Keys.decodeRowKey shape.table entry.key
  materialise shape ⟨primaryKey, entry.value⟩

/-- The body stored under a primary key. -/
def readRowBody (snapshot : Snapshot) (table : TableDef)
    (primaryKey : List Value) : Option Bytes :=
  snapshot.get (Keys.rowKey table primaryKey)

/-- The row under a primary key, if there is one and the filter admits it. -/
def materialisePoint (snapshot : Snapshot) (shape : RowShape)
    (primaryKey : List Value) : Except KernelError (Option Row) :=
  match readRowBody snapshot shape.table primaryKey with
  | none => .ok none
  | some body => materialise shape ⟨primaryKey, body⟩

/-- The row an index entry points at; in one view it has to be there. -/
def materialiseFetched (snapshot : Snapshot) (shape : RowShape)
    (index : IndexDef) (primaryKey : List Value) :
    Except KernelError (Option Row) :=
  match readRowBody snapshot shape.table primaryKey with
  | none => .error (.corruptIndexEntry shape.table.name index.name)
  | some body => materialise shape ⟨primaryKey, body⟩

/-- The primary key an index entry points at. -/
def entryTarget (shape : RowShape) (index : IndexDef) (entry : KeyValue) :
    Except KernelError (List Value) := do
  let (_, primaryKey) ← Keys.decodeIndexEntry shape.table index entry.key entry.value
  return primaryKey

/-- Decode entries until the queue of rows being fetched is full. -/
def prefetchEntries (shape : RowShape) (index : IndexDef) :
    List KeyValue → Except KernelError (List (List Value))
  | [] => .ok []
  | entry :: rest => do
      let target ← entryTarget shape index entry
      let targets ← prefetchEntries shape index rest
      return target :: targets

/--
Return the row fetched first, then decode one more entry to keep the queue
full.  An entry that does not decode ends the walk before the rows queued
ahead of it.
-/
def drainIndex (snapshot : Snapshot) (shape : RowShape) (index : IndexDef) :
    List KeyValue → List (List Value) → Cursor Row
  | [], queue => Cursor.ofList (materialiseFetched snapshot shape index) queue
  | _ :: _, [] => .exhausted
  | entry :: rest, target :: queue =>
      match materialiseFetched snapshot shape index target with
      | .error error => .failed error
      | .ok row =>
          let next :=
            match entryTarget shape index entry with
            | .error error => .failed error
            | .ok fetched => drainIndex snapshot shape index rest (queue ++ [fetched])
          match row with
          | none => next
          | some row => .yields row next

/-- The rows that the entries of an index point at. -/
def indexCursor (snapshot : Snapshot) (shape : RowShape) (index : IndexDef)
    (entries : List KeyValue) : Cursor Row :=
  match prefetchEntries shape index (entries.take DEFAULT_PREFETCH) with
  | .error error => .failed error
  | .ok queue => drainIndex snapshot shape index (entries.drop DEFAULT_PREFETCH) queue

/-- The rows of the entries of an index, over ranges one after the other. -/
def indexSource (snapshot : Snapshot) (shape : RowShape) (id : IndexId)
    (ranges : List KeyRange) (covering : Bool) (order : ScanOrder) :
    Cursor Row :=
  match shape.table.index id with
  | none => .failed (.unknownTable shape.table.id)
  | some index =>
      let entries := ranges.flatMap (fun range => snapshot.scan range order)
      if covering then
        Cursor.ofList (materialiseEntry shape index) entries
      else
        indexCursor snapshot shape index entries

/-- The row under one primary key, decoded to the columns asked for. -/
def pointSource (snapshot : Snapshot) (shape : RowShape)
    (primaryKey : List Value) : Cursor Row :=
  match readRowBody snapshot shape.table primaryKey with
  | none => .exhausted
  | some body =>
      match liftSchema (decodeRowColumns shape.table primaryKey body
          (some shape.decodeColumns)) with
      | .error error => .failed error
      | .ok row =>
          let row := extendRow row shape.compute shape.transient none
          if shape.residual.admits row then
            .yields row .exhausted
          else
            .exhausted

/-- The rows of an access path. -/
def source (snapshot : Snapshot) (shape : RowShape) (order : ScanOrder) :
    Access → Cursor Row
  | .nothing => .exhausted
  | .pointGet key => pointSource snapshot shape key
  | .pointGets keys => Cursor.ofList (materialisePoint snapshot shape) keys
  | .tableScan range =>
      Cursor.ofList (materialiseStored shape) (snapshot.scan range order)
  | .indexScan index range covering =>
      indexSource snapshot shape index [range] covering order
  | .indexScans index ranges covering =>
      let ranges :=
        match order with
        | .ascending => ranges
        | .descending => ranges.reverse
      indexSource snapshot shape index ranges covering order

/-! ## Sorting -/

/-- The order of two rows by one sort key after the other. -/
def compareRows (left right : Row) : List SortKey → Ordering
  | [] => .eq
  | key :: rest =>
      match left.get key.column, right.get key.column with
      | some a, some b =>
          let ordering :=
            match a.isNull, b.isNull with
            | true, true => Ordering.eq
            | true, false => if key.nulls = NullsOrder.first then .lt else .gt
            | false, true => if key.nulls = NullsOrder.first then .gt else .lt
            | false, false =>
                match key.direction with
                | .asc => a.cmp b
                | .desc => b.cmp a
          match ordering with
          | .eq => compareRows left right rest
          | ordering => ordering
      | _, _ => compareRows left right rest

/-- The columns that only computed columns need, each once. -/
def transientColumns (width : Nat) (output : ColumnSet)
    (compute : List Scalar) : List Ordinal :=
  ((compute.flatMap Scalar.columns).filter
    (fun input => decide (input < width ∧ input ∉ output))).dedup

/-- How a plan makes rows. -/
def rowShape (table : TableDef) (plan : Plan) (compute : List Scalar) :
    RowShape :=
  let transient := transientColumns table.columns.length plan.outputColumns compute
  let decodeColumns := plan.outputColumns ∪ transient.toFinset
  let fromEntry :=
    match plan.access with
    | .indexScan index _ true | .indexScans index _ true =>
        (table.index index).bind (fun index => expressionPosition index compute)
    | _ => none
  { table := table
    residual := plan.residual
    filterColumns := plan.predicateColumns
    decodeColumns := decodeColumns
    needsSecondPhase :=
      plan.filterFirst && !decide (decodeColumns ⊆ plan.predicateColumns)
    compute := compute
    transient := transient
    fromEntry := fromEntry }

/-- Carry out a plan. -/
def openCursor (limits : ExecutionLimits) (snapshot : Snapshot)
    (table : TableDef) (plan : Plan) (query : Query) :
    Except KernelError (Cursor Row) :=
  let widest := query.filter.widestInList
  if limits.maxInValues < widest then
    .error (.inListTooLarge limits.maxInValues widest)
  else
    let shape := rowShape table plan query.compute
    let rows := source snapshot shape plan.order plan.access
    let conceal := Cursor.map (fun row => conceal row plan.concealed)
    match plan.sort with
    | none => .ok (conceal rows)
    | some keys => do
        let rows ← rows.collectAtMost (.sortTooLarge limits.maxSortRows)
            limits.maxSortRows
        let sorted := rows.mergeSort
          (fun left right => compareRows left right keys ≠ .gt)
        return conceal (Cursor.ofList (fun row => .ok (some row)) sorted)

end

end SlateOrm
