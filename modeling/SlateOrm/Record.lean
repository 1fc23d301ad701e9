import SlateOrm.Reads

namespace SlateOrm

/-!
# Record transactions

A record transaction turns writes of rows into writes of keys.  A row and its
index entries are written together, and each operation makes its checks against
the transaction's own view before it writes, as far as it can.  The writes a
failed operation has already buffered stay buffered.
-/

/-! ## Operations on a transaction -/

/-- A transaction, and how often it has read the clock. -/
structure RecordState where
  transaction : MemoryStore.Transaction
  readings : Nat := 0

/-- A transaction that has just begun over a store. -/
def RecordState.begin (store : Kv) : RecordState where
  transaction := {
    snapshot := some store
    startedAt := 0
    pending := ∅ }

/-- An operation: it may fail, and it may have written before it fails. -/
def Write (α : Type) : Type := RecordState → Except KernelError α × RecordState

namespace Write

variable {α β : Type}

/-- Carry out an operation. -/
def run (operation : Write α) (state : RecordState) :
    Except KernelError α × RecordState :=
  operation state

instance : Monad Write where
  pure value := fun state => (.ok value, state)
  bind first next := fun state =>
    match first state with
    | (.ok value, state) => next value state
    | (.error error, state) => (.error error, state)

/-- A check that does not look at the store. -/
def lift (outcome : Except KernelError α) : Write α := fun state => (outcome, state)

/-- A read of the transaction's view. -/
def reading (read : Snapshot → Except KernelError α) : Write α :=
  fun state => (read state.transaction, state)

/-- Fail. -/
def refuse (error : KernelError) : Write α := lift (.error error)

/-- Buffer the binding of a key. -/
def put (key value : Bytes) : Write Unit := fun state =>
    (.ok (), { state with transaction := state.transaction.put key value })

/-- Buffer the removal of a key. -/
def delete (key : Bytes) : Write Unit := fun state =>
    (.ok (), { state with transaction := state.transaction.delete key })

/-- An operation for every element, until one fails. -/
def forEach (operation : α → Write Unit) : List α → Write Unit
  | [] => pure ()
  | value :: rest => do
      operation value
      forEach operation rest

/-- The results of an operation for every element, until one fails. -/
def collect (operation : α → Write β) : List α → Write (List β)
  | [] => pure []
  | value :: rest => do
      let result ← operation value
      let results ← collect operation rest
      return result :: results

end Write

/-- What a record transaction works with. -/
structure RecordTransaction where
  catalog : Catalog
  security : SecurityCatalog
  statistics : TableDef → TableStats
  limits : ExecutionLimits
  /-- What the clock shows at each reading. -/
  clock : Nat → Int64

/-- Transactions over a catalog without access rules, which never prefer one
access path to another. -/
def RecordTransaction.plain (catalog : Catalog) : RecordTransaction where
  catalog := catalog
  security := {}
  statistics _ := ⟨fun _ _ => false, fun _ => false, fun _ _ => 0⟩
  limits := {}
  clock _ := 0

/-- The most rows one deletion takes with it. -/
def CASCADE_LIMIT : Nat := 10000

/-- Which rows a bulk write may meet. -/
inductive BulkMode where
  | insert
  | upsert
  | update
  deriving DecidableEq, Repr

def BulkMode.mayInsert : BulkMode → Bool
  | .insert | .upsert => true
  | .update => false

def BulkMode.mayReplace : BulkMode → Bool
  | .upsert | .update => true
  | .insert => false

section

variable [Platform]

/-- Every constraint of a table holds of a row, or all that do not. -/
def checkConstraints (table : TableDef) (row : Row) : Except KernelError Unit :=
  let violations := (table.checks.filter (fun check => !check.satisfiedBy row)).map
      (fun check => CheckFailure.mk check.name check.column check.message)
  if violations.isEmpty then
    .ok ()
  else
    .error (.schema (.checkViolation table.name violations))

/-- The filter admits a row that a caller supplies, which is not retired. -/
def checkRowAgainst (table : TableDef) (row : Row) (filter : Expr) :
    Except KernelError Unit :=
  let supplied := table.softDelete.any (fun column =>
      match row.get column with
      | none | some .null => false
      | some _ => true)
  if supplied then
    let column :=
      match table.softDelete.bind table.column with
      | some column => column.name
      | none => toString (table.softDelete.getD 0)
    .error (.softDeleteColumnSupplied table.name column)
  else if filter.admits row then
    .ok ()
  else
    .error (.rowCheckFailed table.name)

namespace RecordTransaction

variable
  (records : RecordTransaction) (context : SecurityContext) (table : TableDef)

/-- The reads of a transaction. -/
def reads : SecuredReads where
  security := records.security
  statistics := records.statistics
  limits := records.limits

/-- Read the clock. -/
def now : Write Int64 := fun state =>
    (.ok (records.clock state.readings),
      { state with readings := state.readings + 1 })

/-- Check a row that a caller supplies. -/
def checkRow (action : Action) (row : Row) : Except KernelError Unit := do
  let filter ← records.security.rowFilterWith context table action .visible
  checkRowAgainst table row filter

/-- Retired rows are reached where there are none, or by a grant. -/
def retiredRowsReachable : Deleted :=
  if table.softDelete.isNone || records.security.allows context table .readDeleted then
    .visible
  else
    .hidden

/-- The row under a primary key that an action may be about. -/
def visibleRowWith (action : Action) (primaryKey : List Value) (deleted : Deleted)
    (snapshot : Snapshot) : Except KernelError (Option Row) := do
  match ← readRowUnchecked snapshot table primaryKey with
  | none => return none
  | some row =>
      let permitted ← records.security.permitsRowWith context table action row deleted
      return if permitted then some row else none

def visibleRow (action : Action) (primaryKey : List Value) (snapshot : Snapshot) :
    Except KernelError (Option Row) :=
  records.visibleRowWith context table action primaryKey .hidden snapshot

/-! ## Foreign keys -/

def parentOf (foreignKey : ForeignKeyDef) : Except KernelError TableDef :=
  match records.catalog.table foreignKey.parent with
  | some parent => .ok parent
  | none => .error (.unknownTable foreignKey.parent)

/--
The parent a row references is one the caller sees, unless the row referenced
it before or it is among the parents already known.
-/
def checkForeignKey (row : Row) (previous : Option Row) (known : List Bytes)
    (snapshot : Snapshot) (foreignKey : ForeignKeyDef) : Except KernelError Unit :=
  match foreignKey.parentKey row with
  | none => .ok ()
  | some parentKey =>
      if (previous.bind foreignKey.parentKey).any (· == parentKey) then
        .ok ()
      else do
        let parent ← records.parentOf foreignKey
        if known.contains (Keys.rowKey parent parentKey) then
          .ok ()
        else
          match ← records.reads.get snapshot context parent parentKey with
          | some _ => .ok ()
          | none =>
              .error (.schema (.foreignKeyViolation table.name foreignKey.name
                parent.name))

def checkForeignKeys (row : Row) (previous : Option Row) (known : List Bytes)
    (snapshot : Snapshot) : Except KernelError Unit :=
  checkEach (records.checkForeignKey context table row previous known snapshot)
    table.foreignKeys

/-- The parents that rows reference, each asked for once. -/
def wantedParents (records : RecordTransaction) (rows : List Row) :
    List ForeignKeyDef → List Bytes → Except KernelError (List (TableDef × List Value))
  | [], _ => .ok []
  | foreignKey :: rest, asked => do
      let parent ← records.parentOf foreignKey
      let (asked, wanted) := (rows.filterMap foreignKey.parentKey).foldl
          (fun (asked, wanted) key =>
            if asked.contains (Keys.rowKey parent key) then
              (asked, wanted)
            else
              (Keys.rowKey parent key :: asked, wanted ++ [(parent, key)]))
          (asked, [])
      let others ← records.wantedParents rows rest asked
      return wanted ++ others

/-- The keys of those parents that the caller sees. -/
def foundParents (records : RecordTransaction)
    (context : SecurityContext) (snapshot : Snapshot) :
    List (TableDef × List Value) → Except KernelError (List Bytes)
  | [] => .ok []
  | (parent, key) :: rest => do
      let row ← records.reads.get snapshot context parent key
      let found ← records.foundParents context snapshot rest
      return if row.isSome then Keys.rowKey parent key :: found else found

def visibleParents (rows : List Row) (snapshot : Snapshot) :
    Except KernelError (List Bytes) := do
  let wanted ← records.wantedParents rows table.foreignKeys []
  records.foundParents context snapshot wanted

/-! ## Writing a row -/

/-- The managed columns of a row, as the store supplies them. -/
def stampedValues (previous : Option Row) (now : Int64) (values : List Value) :
    List Value :=
  values.zipIdx.map (fun (value, ordinal) =>
    match table.column ordinal with
    | some column =>
        match column.managed, column.type with
        | some .createdAt, .i64 =>
            match previous.bind (fun before => before.get ordinal) with
            | some (.i64 held) => .i64 held
            | _ => .i64 now
        | some .updatedAt, .i64 => .i64 now
        | _, _ => value
    | none => value)

/-- The row with its managed columns supplied. -/
def stamp (row : Row) (previous : Option Row) : Write Row :=
  if table.isManaged then do
    let now ← records.now
    return ⟨stampedValues table previous now row.values⟩
  else
    return row

/-- The row that holds a unique slot, if any, is the one being written. -/
def checkUnique (index : IndexDef) (entry : Keys.IndexEntry) (primaryKey : List Value)
    (snapshot : Snapshot) : Except KernelError Unit :=
  match snapshot.get entry.key with
  | none => .ok ()
  | some existing => do
      let owner ← liftTuple (decode existing table.primaryKeyTypes)
      if owner == primaryKey then
        .ok ()
      else
        .error (.uniqueViolation table.name index.name)

/-- Whether an entry's key is among those of others. -/
def unchanged (entry : Keys.IndexEntry) (against : List Keys.IndexEntry) :
    Bool :=
  against.any (fun other => other.key == entry.key)

/-- The entries of an index for the row that is replaced. -/
def previousEntries (index : IndexDef) (previous : Option Row) : List Keys.IndexEntry :=
  match previous with
  | none => []
  | some old => admittedEntries table index old

/-- Replace the entries of one index. -/
def writeIndex (row : Row) (previous : Option Row) (verifyUnique : Bool)
    (index : IndexDef) : Write Unit := do
  let newEntries := admittedEntries table index row
  let oldEntries := previousEntries table index previous
  Write.forEach (fun old =>
    if unchanged old newEntries then
      pure ()
    else
      Write.delete old.key) oldEntries
  Write.forEach (fun new =>
    if unchanged new oldEntries then
      pure ()
    else do
      if verifyUnique && new.enforcesUniqueness then
        Write.reading (checkUnique table index new (row.primaryKeyValues table))
      Write.put new.key new.value) newEntries

/-- Write a row and its index entries in the place of a previous row. -/
def writeRowWith (row : Row) (previous : Option Row) (verifyUnique : Bool) :
    Write Unit := do
  let row ← records.stamp table row previous
  Write.forEach (writeIndex table row previous verifyUnique) table.indexes
  Write.put (Keys.rowKey table (row.primaryKeyValues table)) (encodeBody table row)

def writeRow (row : Row) (previous : Option Row) : Write Unit :=
  records.writeRowWith table row previous true

/-! ## Single rows -/

/-- Every check of an insertion. -/
def checkInsert (row : Row) (snapshot : Snapshot) : Except KernelError Unit := do
  records.security.authorize context table .insert
  liftSchema (row.validate table)
  records.checkRow context table .insert row
  checkConstraints table row
  match ← readRowUnchecked snapshot table (row.primaryKeyValues table) with
  | some _ => .error (.duplicatePrimaryKey table.name)
  | none => records.checkForeignKeys context table row none [] snapshot

/-- Insert a row whose primary key is free. -/
def insert (row : Row) : Write Unit := do
  Write.reading (records.checkInsert context table row)
  records.writeRow table row none

/-- The checks of a row that is about to replace another. -/
def checkReplacement (action : Action) (row : Row) (existing : Option Row)
    (snapshot : Snapshot) : Except KernelError Unit := do
  records.checkRow context table action row
  checkConstraints table row
  records.checkForeignKeys context table row existing [] snapshot

/-- Every check of an update, and the row it will replace. -/
def checkUpdate (row : Row) (snapshot : Snapshot) : Except KernelError Row := do
  records.security.authorize context table .update
  records.security.requireEveryColumn context table "a whole-row update"
  liftSchema (row.validate table)
  match ← records.visibleRowWith context table .update
      (row.primaryKeyValues table)
      (records.retiredRowsReachable context table) snapshot with
  | none => .error (.rowNotFound table.name)
  | some existing => do
      records.checkReplacement context table .update row (some existing) snapshot
      return existing

/-- Replace a row that the caller sees. -/
def update (row : Row) : Write Unit := do
  let existing ← Write.reading (records.checkUpdate context table row)
  records.writeRow table row (some existing)

/-- Every check of an update that expects a row, which it will replace. -/
def checkUpdateIfUnchanged (row expected : Row) (snapshot : Snapshot) :
    Except KernelError Row := do
  records.security.authorize context table .update
  records.security.requireEveryColumn context table "a compare-and-swap update"
  liftSchema (row.validate table)
  liftSchema (expected.validate table)
  let primaryKey := row.primaryKeyValues table
  if expected.primaryKeyValues table != primaryKey then
    .error (.rowChanged table.name)
  else do
    match ← records.visibleRow context table .update primaryKey snapshot with
    | none => .error (.rowNotFound table.name)
    | some existing =>
        if existing != expected then
          .error (.rowChanged table.name)
        else do
          records.checkReplacement context table .update row (some existing) snapshot
          return existing

/-- Replace a row that is still the one the caller expects. -/
def updateIfUnchanged (row expected : Row) : Write Unit := do
  let existing ← Write.reading
      (records.checkUpdateIfUnchanged context table row expected)
  records.writeRow table row (some existing)

/-- Whether the row that an upsert meets is one the caller may replace. -/
def mayReplace : Option Row → Except KernelError Bool
  | none => .ok true
  | some current =>
      records.security.permitsRowWith context table .update current
        (records.retiredRowsReachable context table)

/-- Every check of an upsert, and the row it will replace. -/
def checkUpsert (row : Row) (snapshot : Snapshot) :
    Except KernelError (Option Row) := do
  records.security.authorize context table .insert
  records.security.authorize context table .update
  records.security.requireEveryColumn context table "an upsert"
  liftSchema (row.validate table)
  records.checkRow context table .insert row
  let existing ← readRowUnchecked snapshot table (row.primaryKeyValues table)
  let visible ← records.mayReplace context table existing
  if !visible then
    .error (.rowNotFound table.name)
  else do
    records.checkReplacement context table
      (if existing.isSome then .update else .insert) row existing snapshot
    return existing

/-- Insert a row, or replace the one under its primary key. -/
def upsert (row : Row) : Write Unit := do
  let existing ← Write.reading (records.checkUpsert context table row)
  records.writeRow table row existing

/-! ## Many rows -/

/-- The rows are valid and have primary keys of their own. -/
def checkBulkKeys (table : TableDef) : List Bytes → List Row → Except KernelError Unit
  | _, [] => .ok ()
  | seen, row :: rest => do
      liftSchema (row.validate table)
      let key := Keys.rowKey table (row.primaryKeyValues table)
      if seen.contains key then
        .error (.duplicatePrimaryKey table.name)
      else
        checkBulkKeys table (key :: seen) rest

/-- The unique slot an index holds a row in. -/
def uniqueSlot (index : IndexDef) (row : Row) : Option Keys.IndexEntry :=
  if index.admits row then
    let entry := Keys.indexEntry table index (index.keyValues row)
        (row.primaryKeyValues table)
    if entry.enforcesUniqueness then some entry else none
  else
    none

/-- No two of the rows take one slot of a unique index. -/
def checkBatchSlots (table : TableDef) (index : IndexDef) :
    List Bytes → List Row → Except KernelError Unit
  | _, [] => .ok ()
  | slots, row :: rest =>
      match uniqueSlot table index row with
      | none => checkBatchSlots table index slots rest
      | some entry =>
          if slots.contains entry.key then
            .error (.uniqueViolation table.name index.name)
          else
            checkBatchSlots table index (entry.key :: slots) rest

/-- The rows under some primary keys. -/
def readRows (snapshot : Snapshot) (table : TableDef) :
    List (List Value) → Except KernelError (List (Option Row))
  | [] => .ok []
  | primaryKey :: rest => do
      let row ← readRowUnchecked snapshot table primaryKey
      let rows ← readRows snapshot table rest
      return row :: rows

/-- The slot a row newly takes in a unique index, with the row's key. -/
def newSlot (index : IndexDef) (row : Row) (previous : Option Row) :
    Option (Keys.IndexEntry × List Value) :=
  match uniqueSlot table index row with
  | none => none
  | some entry =>
      let primaryKey := row.primaryKeyValues table
      let held :=
        match previous with
        | none => false
        | some old =>
            index.admits old && (Keys.indexEntry table index (index.keyValues old)
                primaryKey).key == entry.key
      if held then none else some (entry, primaryKey)

/-- No row takes a unique slot that another row holds in the store. -/
def checkUniqueSlots (rows : List Row) (existing : List (Option Row))
    (snapshot : Snapshot) : Except KernelError Unit :=
  checkEach (fun index =>
    checkEach (fun taken : Keys.IndexEntry × List Value =>
      checkUnique table index taken.1 taken.2 snapshot)
      ((rows.zip existing).filterMap (fun pair => newSlot table index pair.1 pair.2)))
    (table.indexes.filter IndexDef.unique)

/-- Check one row of a bulk write against what is stored under its key. -/
def checkBulkRow (mode : BulkMode) (parents : List Bytes)
    (existingFilter insertCheck updateCheck : Expr) (snapshot : Snapshot)
    (pair : Row × Option Row) : Except KernelError Unit := do
  match pair.2, mode with
  | some _, .insert => .error (.duplicatePrimaryKey table.name)
  | none, .update => .error (.rowNotFound table.name)
  | some current, _ =>
      if existingFilter.admits current then
        .ok ()
      else
        .error (.rowNotFound table.name)
  | none, _ => .ok ()
  checkRowAgainst table pair.1 (if pair.2.isSome then updateCheck else insertCheck)
  records.checkForeignKeys context table pair.1 pair.2 parents snapshot

/-- Every check of a bulk write, and the rows it will replace. -/
def checkMany (rows : List Row) (mode : BulkMode) (snapshot : Snapshot) :
    Except KernelError (List (Option Row)) := do
  if mode.mayInsert then
    records.security.authorize context table .insert
  if mode.mayReplace then do
    records.security.authorize context table .update
    records.security.requireEveryColumn context table "a whole-row replace"
  checkBulkKeys table [] rows
  checkEach (fun index => checkBatchSlots table index [] rows)
    (table.indexes.filter IndexDef.unique)
  checkEach (checkConstraints table) rows
  if mode.mayInsert then
    checkEach (records.checkRow context table .insert) rows
  let primaryKeys := rows.map (fun row => row.primaryKeyValues table)
  let existing ← readRows snapshot table primaryKeys
  checkUniqueSlots table rows existing snapshot
  let parents ← records.visibleParents context table rows snapshot
  let parents := if table.foreignKeys.any (fun key => key.parent == table.id) then
      parents ++ primaryKeys.map (Keys.rowKey table)
    else
      parents
  let existingFilter ← records.security.rowFilterWith context table .update
      (records.retiredRowsReachable context table)
  let insertCheck ← records.security.rowFilterWith context table .insert .visible
  let updateCheck ← records.security.rowFilterWith context table .update .visible
  checkEach (records.checkBulkRow context table mode parents existingFilter
    insertCheck updateCheck snapshot) (rows.zip existing)
  return existing

/-- Write rows after all of them have been checked. -/
def writeMany (rows : List Row) (mode : BulkMode) : Write Unit :=
  if rows.isEmpty then
    pure ()
  else do
    let existing ← Write.reading (records.checkMany context table rows mode)
    Write.forEach (fun pair =>
      records.writeRowWith table pair.1 pair.2 false) (rows.zip existing)

def insertMany (rows : List Row) : Write Unit :=
  records.writeMany context table rows .insert

def upsertMany (rows : List Row) : Write Unit :=
  records.writeMany context table rows .upsert

def updateMany (rows : List Row) : Write Unit :=
  records.writeMany context table rows .update

end RecordTransaction

end

end SlateOrm
