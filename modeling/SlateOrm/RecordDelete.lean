import SlateOrm.Record

namespace SlateOrm

/-!
# Deletions and predicate writes

Deleting a row deletes the rows that reference it, where their foreign keys
cascade, and is refused while others reference it.  A predicate write works
through the rows its filter finds one by one.
-/

namespace RecordTransaction

section

variable [Platform]

variable
  (records : RecordTransaction) (context : SecurityContext) (table : TableDef)

/-! ## What a deletion takes with it -/

/-- The rows of a child table that reference a parent's key. -/
def referencingRows (child : TableDef) (foreignKey : ForeignKeyDef)
    (parentKey : List Value) (retired : Deleted) (snapshot : Snapshot) :
    Except KernelError (List Row) := do
  let filter := Expr.all ((foreignKey.columns.zip parentKey).map
      (fun pair => Expr.eq pair.1 pair.2))
  let query : Query := {
    filter := filter
    includeDeleted := retired == .visible }
  let cursor ← records.reads.execute snapshot context child query
  cursor.collect

/-- The tables that cascading foreign keys lead to. -/
def cascadeReachableFrom (records : RecordTransaction) :
    Nat → List TableId → List TableId → List TableDef → List TableDef
  | 0, _, _, out => out
  | _, [], _, out => out
  | fuel + 1, parent :: pending, seen, out =>
      let (seen, found) := (records.catalog.referencing parent).foldl
          (fun (seen, found) (child, foreignKey) =>
            if foreignKey.onDelete ≠ .cascade ∨ child.id ∈ seen then
              (seen, found)
            else
              (seen ++ [child.id], found ++ [child]))
          (seen, [])
      records.cascadeReachableFrom fuel
        (pending ++ found.map TableDef.id) seen (out ++ found)

/-- Each table is visited once, so there are no more visits than tables. -/
def cascadeReachable : List TableDef :=
  records.cascadeReachableFrom (records.catalog.tables.length + 1)
    [table.id] [table.id] []

/-- The rows a deletion takes with it so far, and their keys. -/
structure Closure where
  rows : List (TableDef × Row)
  scheduled : List Bytes

/-- Add a row to a deletion, unless it is part of it already. -/
def schedule (root : TableDef) (child : TableDef) (closure : Closure)
    (found : Row) : Except KernelError Closure :=
  let key := Keys.rowKey child (found.primaryKeyValues child)
  if closure.scheduled.contains key then
    .ok closure
  else if CASCADE_LIMIT ≤ closure.rows.length then
    .error (.schema (.cascadeTooLarge root.name CASCADE_LIMIT))
  else
    .ok ⟨closure.rows ++ [(child, found)], key :: closure.scheduled⟩

/-- Add the rows that reference a parent through one foreign key. -/
def cascadeThrough (root : TableDef) (parentKey : List Value) (snapshot : Snapshot)
    (closure : Closure) (edge : TableDef × ForeignKeyDef) :
    Except KernelError Closure :=
  if edge.2.onDelete ≠ .cascade then
    .ok closure
  else do
    let found ← records.referencingRows .superuser edge.1 edge.2 parentKey .hidden
        snapshot
    found.foldlM (schedule root edge.1) closure

/-- Add what each row of a deletion takes with it, from a position on. -/
def cascadeFrom (records : RecordTransaction) (root : TableDef) (snapshot : Snapshot) :
    Nat → Nat → Closure → Except KernelError Closure
  | 0, _, closure => .ok closure
  | fuel + 1, position, closure =>
      match closure.rows[position]? with
      | none => .ok closure
      | some (parent, row) => do
          let closure ← (records.catalog.referencing parent.id).foldlM
              (records.cascadeThrough root (row.primaryKeyValues parent)
                snapshot) closure
          records.cascadeFrom root snapshot fuel (position + 1) closure

/-- No row outside a deletion references a row of it and restricts that. -/
def checkRestrict (scheduled : List Bytes) (snapshot : Snapshot) (parent : TableDef)
    (row : Row) (edge : TableDef × ForeignKeyDef) : Except KernelError Unit :=
  if edge.2.onDelete ≠ .restrict then
    .ok ()
  else do
    let child := edge.1
    let found ← records.referencingRows .superuser child edge.2
        (row.primaryKeyValues parent) .visible snapshot
    let blockers := found.filter (fun row =>
        !scheduled.contains (Keys.rowKey child (row.primaryKeyValues child)))
    if blockers.isEmpty then
      .ok ()
    else
      let retired := child.softDelete.any (fun column =>
          blockers.all (fun row =>
            match row.get column with
            | none | some .null => false
            | some _ => true))
      .error (.schema (.foreignKeyRestricted parent.name child.name
        edge.2.name retired))

/--
The rows a deletion takes with it.  A deletion is refused beyond a number of
rows, so the walk over them needs no more steps than that.
-/
def deletionClosure (row : Row) (snapshot : Snapshot) :
    Except KernelError (List (TableDef × Row)) :=
  if (records.catalog.referencing table.id).isEmpty then
    .ok [(table, row)]
  else do
    checkEach (fun reachable =>
      records.security.authorize context reachable .delete)
      (records.cascadeReachable table)
    let start : Closure := {
      rows := [(table, row)]
      scheduled := [Keys.rowKey table (row.primaryKeyValues table)] }
    let closure ← records.cascadeFrom table snapshot CASCADE_LIMIT 0 start
    checkEach (fun (parent, row) =>
      checkEach (records.checkRestrict closure.scheduled snapshot parent row)
        (records.catalog.referencing parent.id))
      closure.rows
    return closure.rows

/-! ## Removing rows -/

/-- Remove a row and its index entries. -/
def eraseRow (row : Row) : Write Unit := do
  Write.forEach (fun index =>
    Write.forEach (fun entry : Keys.IndexEntry => Write.delete entry.key)
      (admittedEntries table index row)) table.indexes
  Write.delete (Keys.rowKey table (row.primaryKeyValues table))

/-- Remove a row, or retire it on a table that keeps its deleted rows. -/
def removeRow (row : Row) : Write Unit :=
  match table.softDelete with
  | none => eraseRow table row
  | some column => do
      let now ← records.now
      if column < row.values.length then
        records.writeRowWith table ⟨row.values.set column (.i64 now)⟩ (some row) false
      else
        Write.refuse (.schema (.columnCountMismatch table.name
          table.columns.length row.values.length))

/-- Every check of a deletion, and the rows it takes with it, if any. -/
def checkDelete (primaryKey : List Value) (snapshot : Snapshot) :
    Except KernelError (Option (List (TableDef × Row))) := do
  records.security.authorize context table .delete
  match ← records.visibleRow context table .delete primaryKey snapshot with
  | none => return none
  | some existing => do
      let doomed ← records.deletionClosure context table existing snapshot
      return some doomed

/-- Remove the rows of a deletion. -/
def removeRows (doomed : List (TableDef × Row)) : Write Unit :=
  Write.forEach (fun (owner, row) => records.removeRow owner row) doomed

/-- Delete the row under a primary key; whether there was one to see. -/
def delete (primaryKey : List Value) : Write Bool := do
  match ← Write.reading (records.checkDelete context table primaryKey) with
  | none => return false
  | some doomed => do
      records.removeRows doomed
      return true

/-- Every check of a deletion that expects a row. -/
def checkDeleteIfUnchanged (primaryKey : List Value) (expected : Row)
    (snapshot : Snapshot) : Except KernelError (List (TableDef × Row)) := do
  records.security.authorize context table .delete
  records.security.requireEveryColumn context table "a compare-and-swap delete"
  liftSchema (expected.validate table)
  if expected.primaryKeyValues table != primaryKey then
    .error (.rowChanged table.name)
  else do
    match ← records.visibleRow context table .delete primaryKey snapshot with
    | none => .error (.rowNotFound table.name)
    | some existing =>
        if existing != expected then
          .error (.rowChanged table.name)
        else
          records.deletionClosure context table existing snapshot

/-- Delete a row that is still the one the caller expects. -/
def deleteIfUnchanged (primaryKey : List Value) (expected : Row) : Write Unit := do
  let doomed ← Write.reading
      (records.checkDeleteIfUnchanged context table primaryKey expected)
  records.removeRows doomed

/-! ## Predicate writes -/

/-- The rows of a cursor, unless there are more than the caller wants. -/
def collectMatched (atMost : Option Nat) (cursor : Cursor Row) :
    Except KernelError (List Row) :=
  match atMost with
  | none => cursor.collect
  | some limit => cursor.collectAtMost (.predicateWriteTooLarge limit) limit

/-- The rows that a predicate write is about. -/
def matchingRows (predicate : Expr) (atMost : Option Nat) (snapshot : Snapshot) :
    Except KernelError (List Row) := do
  let cursor ← records.reads.executeForWrite snapshot context table
      { filter := predicate }
  collectMatched atMost cursor

/-- Delete one row that a deletion has found, and what goes with it. -/
def deleteMatched (row : Row) : Write Row := do
  let doomed ← Write.reading (records.deletionClosure context table row)
  records.removeRows doomed
  return conceal row (records.security.concealed context table)

/-- The rows that a deletion by predicate is about. -/
def checkDeleteWhere (predicate : Expr) (atMost : Option Nat) (snapshot : Snapshot) :
    Except KernelError (List Row) := do
  records.security.authorize context table .delete
  records.matchingRows context table predicate atMost snapshot

/-- Delete every row that a predicate finds, and what goes with them. -/
def deleteWhere (predicate : Expr) (atMost : Option Nat) : Write (List Row) := do
  let matched ← Write.reading (records.checkDeleteWhere context table predicate atMost)
  Write.collect (records.deleteMatched context table) matched

/-- Erase the rows that were retired before an instant. -/
def purgeDeleted (before : Int64) (atMost : Option Nat) : Write Nat :=
  match table.softDelete with
  | none => Write.refuse (.notSoftDeleting table.name)
  | some column => do
      Write.lift (records.security.authorize context table .delete)
      let query : Query := {
        filter := .all [.isNull column true, .compare column .lt (.i64 before)]
        includeDeleted := true }
      let doomed ← Write.reading (fun snapshot => do
        let cursor ← records.reads.execute snapshot context table query
        collectMatched atMost cursor)
      Write.forEach (eraseRow table) doomed
      return doomed.length

/-- The assigned columns are there, and none is assigned twice. -/
def checkAssignments (table : TableDef) :
    List Ordinal → List (Ordinal × Scalar) → Except KernelError Unit
  | _, [] => .ok ()
  | seen, (ordinal, _) :: rest =>
      if table.columns.length ≤ ordinal then
        .error (.noSuchColumn table.name ordinal)
      else if seen.contains ordinal then
        .error (.duplicateAssignment table.name ordinal)
      else
        checkAssignments table (ordinal :: seen) rest

/-- The assignments read only columns the caller reads. -/
def checkAssignedReads (assignments : List (Ordinal × Scalar)) :
    Except KernelError Unit :=
  match records.security.readable context table with
  | none => .ok ()
  | some readable =>
      if assignments.any (fun assignment =>
          assignment.2.columns.any (fun column =>
            decide (column < table.columns.length ∧ column ∉ readable))) then
        .error (.columnsWithheld table.name "this update's assignments")
      else
        .ok ()

/-- A row with the assigned columns changed. -/
def assigned (assignments : List (Ordinal × Scalar)) (existing : Row) :
    Row :=
  ⟨assignments.foldl (fun values assignment =>
      values.set assignment.1 (assignment.2.evaluate existing.get))
    existing.values⟩

/-- Every check of a row as an update would leave it. -/
def checkMatched (next existing : Row) (snapshot : Snapshot) :
    Except KernelError Unit := do
  liftSchema (next.validate table)
  records.checkReplacement context table .update next (some existing) snapshot

/-- Change one row that an update has found. -/
def updateMatched (assignments : List (Ordinal × Scalar)) (existing : Row) :
    Write Row := do
  let next := assigned assignments existing
  Write.reading (records.checkMatched context table next existing)
  records.writeRow table next (some existing)
  return conceal next (records.security.concealed context table)

/-- The rows that an update by predicate is about. -/
def checkUpdateWhere (predicate : Expr) (assignments : List (Ordinal × Scalar))
    (atMost : Option Nat) (snapshot : Snapshot) : Except KernelError (List Row) := do
  records.security.authorize context table .update
  checkAssignments table [] assignments
  if assignments.isEmpty then
    return []
  else do
    records.checkAssignedReads context table assignments
    records.matchingRows context table predicate atMost snapshot

/-- Change every row that a predicate finds. -/
def updateWhere (predicate : Expr) (assignments : List (Ordinal × Scalar))
    (atMost : Option Nat) : Write (List Row) := do
  let matched ← Write.reading
      (records.checkUpdateWhere context table predicate assignments atMost)
  Write.collect (records.updateMatched context table assignments) matched

end

end RecordTransaction

end SlateOrm
