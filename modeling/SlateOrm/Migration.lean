import SlateOrm.MigrationState
import SlateOrm.Record

namespace SlateOrm

/-!
# Migrations

A plan compares what the keyspace records about each table with what the code
declares.  Applying it builds the indexes that have not been built, drops the
entries of those that are no longer declared, and records the new state of each
table it touches when all of that has been committed.  A build or a drop of any
size is several transactions.
-/

/-! ## What a layout change means for stored rows -/

/-- How a column reads in a refusal. -/
def describeColumn (column : StoredColumn) : String :=
  let named (code : UInt64) : String :=
    match ValueType.all.find? (fun type => typeCode type == code) with
    | none => "type code " ++ toString code
    | some type => type.name
  let out := named column.typeCode
  let out := if column.elementCode != 0 then
      out ++ " of " ++ named column.elementCode
    else
      out
  let out := if column.scale != 0 then
      out ++ " at scale " ++ toString column.scale
    else
      out
  let out := if column.nullable then "nullable " ++ out else out
  if column.dropped then "a dropped " ++ out else out

namespace StoredColumn

/-- Everything about two columns but their names is the same. -/
def sameLayout (was now : StoredColumn) : Bool :=
  was.typeCode == now.typeCode && was.nullable == now.nullable &&
    was.dropped == now.dropped && was.scale == now.scale &&
    was.elementCode == now.elementCode

end StoredColumn

/-- The columns at one ordinal that are not laid out as they were. -/
def columnChanges (stored current : StoredSchema) : List LayoutChange :=
  (stored.columns.zip current.columns).zipIdx.filterMap (fun ((was, now), ordinal) =>
      if was.sameLayout now then
        none
      else
        some (.column ordinal was.name (describeColumn was) (describeColumn now)))

/-- Every way a stored layout differs from a declared one. -/
def layoutChanges (stored current : StoredSchema) : List LayoutChange :=
  (if stored.columns.length != current.columns.length then
    [.columnCount stored.columns.length current.columns.length]
  else
    []) ++
  columnChanges stored current ++
  (if stored.primaryKey != current.primaryKey then
    [.primaryKey stored.primaryKey current.primaryKey]
  else
    []) ++
  (if stored.tenantColumn != current.tenantColumn then
    [.tenantColumn stored.tenantColumn current.tenantColumn]
  else
    [])

namespace LayoutChange

def isColumnCount : LayoutChange → Bool
  | columnCount _ _ => true
  | _ => false

def message : LayoutChange → String
  | columnCount stored current =>
      "had " ++ toString stored ++ " columns and now has " ++ toString current
  | column ordinal name was now =>
      "column " ++ toString ordinal ++ " `" ++ name ++ "` was " ++ was ++
        " and is now " ++ now
  | primaryKey stored current =>
      "the primary key was " ++ debugOrdinals stored ++ " and is now " ++
        debugOrdinals current
  | tenantColumn none (some ordinal) =>
      "the table gained a tenant column at " ++ toString ordinal
  | tenantColumn (some ordinal) none =>
      "the table lost its tenant column at " ++ toString ordinal
  | tenantColumn stored current =>
      "the tenant column moved from " ++ debugOrdinal stored ++ " to " ++
        debugOrdinal current

end LayoutChange

/-- What a layout difference means for rows that are already stored. -/
inductive Evolution where
  | compatible (added retired : List String)
  | incompatible (changes : List LayoutChange)
  deriving DecidableEq, Repr

/-- Whether a declared layout can be adopted over rows of a stored one. -/
def evolution (stored : StoredSchema) (table : TableDef)
    (storedVersion : UInt32) : Evolution :=
  let current := StoredSchema.of table
  let changes := layoutChanges stored current
  let widened := stored.columns.length < current.columns.length
  if changes.any (fun change => !change.isColumnCount) ||
      (!changes.isEmpty && !widened) then
    .incompatible changes
  else
    let appended := table.columns.drop stored.columns.length
    if appended.any (fun column => column.addedIn ≤ storedVersion) then
      .incompatible changes
    else
      .compatible (appended.map ColumnDef.name)
        (((table.columns.take stored.columns.length).zip stored.columns).filterMap
          (fun (now, was) =>
            if now.isDropped && !was.dropped then some now.name else none))

/-! ## Plans -/

/-- One thing a migration would do. -/
inductive Step where
  | register (table : TableId) (name : String)
  | buildIndex (table : TableId) (index : IndexId) (name : String)
  | dropIndex (table : TableId) (index : IndexId)
  | noteVersion (table : TableId) (recorded declared : UInt32)
  | widenSchema (table : TableId) (name : String) (added retired : List String)
  | recordSchema (table : TableId) (name : String)
  deriving DecidableEq, Repr

/-- The table that a step is about. -/
def Step.table : Step → TableId
  | register table _ => table
  | buildIndex table _ _ => table
  | dropIndex table _ => table
  | noteVersion table _ _ => table
  | widenSchema table _ _ _ => table
  | recordSchema table _ => table

def Step.touches (step : Step) (table : TableId) : Bool := step.table == table

namespace Refusal

def isSoleWriterNotEstablished : Refusal → Bool
  | soleWriterNotEstablished _ _ => true
  | _ => false

def message : Refusal → String
  | layoutChanged table stored current changes =>
      if changes.isEmpty then
        "`" ++ table ++
          "`: the column layout changed under rows that are already stored (recorded " ++
          hexadecimal stored.toNat ++ ", code declares " ++
          hexadecimal current.toNat ++
          "). This record predates stored schemas — or holds one that agrees with the code, which would mean the record is inconsistent with its own hash — so all that can be said is that the fingerprint covers the number of columns, each one's type and nullability, which columns are dropped, the primary key and the tenant column, and one of those is not what it was. Migrating this table once rewrites the record and the next such refusal will name the column. Renames, CHECKs and foreign keys are not covered and are not this."
      else
        "`" ++ table ++
          "`: the column layout changed under rows that are already stored" ++
          String.join (changes.map (fun change => "; " ++ change.message)) ++
          ". Renames, CHECKs and foreign keys are not covered and are not this."
  | unknownFormat table format =>
      "`" ++ table ++ "`: schema state is in format " ++ toString format ++
        ", which this binary cannot read. It was written by a newer version"
  | corrupt table detail => "`" ++ table ++ "`: schema state did not decode: " ++ detail
  | soleWriterNotEstablished table index =>
      "`" ++ table ++ "`: building the unique index `" ++ index ++
        "` over rows that are already stored is not safe while anything else may be writing this keyspace. The backfill's uniqueness check and the write path's are separate reads, so two rows colliding on the new key can each pass their own and both be written — leaving an index that names one row and hides the other. Deploy it with a single writer, or have the caller establish sole writership and clear this with `MigrationPlan::with_sole_writer`. A non-unique index has no such hazard and is not refused"

end Refusal

/-- What a migration would do, and what it refuses to. -/
structure MigrationPlan where
  steps : List Step := []
  refusals : List Refusal := []
  deriving DecidableEq, Repr

namespace MigrationPlan

def isBlocked (plan : MigrationPlan) : Bool := !plan.refusals.isEmpty

/-- The plan of a caller that nothing else can write beside. -/
def withSoleWriter (plan : MigrationPlan) : MigrationPlan :=
  { plan with
    refusals := plan.refusals.filter
        (fun refusal => !refusal.isSoleWriterNotEstablished) }

def whyBlocked (plan : MigrationPlan) : String :=
  String.intercalate "; " (plan.refusals.map Refusal.message)

def append (first second : MigrationPlan) : MigrationPlan where
  steps := first.steps ++ second.steps
  refusals := first.refusals ++ second.refusals

end MigrationPlan

namespace Migration

def buildStep (table : TableDef) (index : IndexDef) : Step :=
  .buildIndex table.id index.id index.name

/-- The steps of a table that the keyspace has never heard of. -/
def planNew (table : TableDef) : MigrationPlan where
  steps := .register table.id table.name :: table.indexes.map (buildStep table)

/-- The indexes of a table that its record does not list. -/
def unbuilt (table : TableDef) (state : TableState) : List IndexDef :=
  table.indexes.filter (fun index => !state.built.contains index.id)

/-- The indexes that a record lists and its table does not declare. -/
def undeclared (table : TableDef) (state : TableState) : List IndexId :=
  state.built.filter (fun id => (table.index id).isNone)

/-- What is left to do on a table whose layout may be adopted. -/
def planAdopted (table : TableDef) (state : TableState) : MigrationPlan where
  steps := (unbuilt table state).map (buildStep table) ++
      (undeclared table state).map (Step.dropIndex table.id) ++
      (if state.schemaVersion != table.schemaVersion then
        [.noteVersion table.id state.schemaVersion table.schemaVersion]
      else
        []) ++
      (if state.schema.isNone then
        [.recordSchema table.id table.name]
      else
        [])
  refusals := ((unbuilt table state).filter IndexDef.unique).map
      (fun index => .soleWriterNotEstablished table.name index.name)

/-- The plan of a table that is recorded. -/
def planRecorded (table : TableDef) (state : TableState) : MigrationPlan :=
  let current := fingerprint table
  let refused (changes : List LayoutChange) : MigrationPlan := {
    refusals := [.layoutChanged table.name state.fingerprint current changes] }
  if state.fingerprint != current then
    match state.schema.map
        (fun schema => evolution schema table state.schemaVersion) with
    | some (.compatible added retired) =>
        let widened : MigrationPlan := {
          steps := [.widenSchema table.id table.name added retired] }
        widened.append (planAdopted table state)
    | some (.incompatible changes) => refused changes
    | none => refused []
  else
    planAdopted table state

/-- What the keyspace records about a table. -/
def storedState (snapshot : Snapshot) (table : TableDef) :
    Option (Except Refusal TableState) :=
  (snapshot.get (Keys.metaKey table.id)).map (decodeState table)

/-- The plan of one table. -/
def planTable (snapshot : Snapshot) (table : TableDef) : MigrationPlan :=
  match storedState snapshot table with
  | none => planNew table
  | some (.error refusal) => { refusals := [refusal] }
  | some (.ok state) => planRecorded table state

/-- What migrating a catalog would do. -/
def planOf (snapshot : Snapshot) (catalog : Catalog) : MigrationPlan :=
  (catalog.tables.map (planTable snapshot)).foldl MigrationPlan.append {}

end Migration

/-! ## Transactions of a migration -/

/--
A migration: how it ends, and what each of its transactions left committed,
in order.
-/
def Migrating (α : Type) : Type := Kv → Except KernelError α × List Kv

namespace Migrating

variable {α β : Type}

/-- Carry out a migration. -/
def run (migration : Migrating α) (store : Kv) : Except KernelError α × List Kv :=
  migration store

/-- What is committed after some transactions. -/
def latest (store : Kv) (committed : List Kv) : Kv := committed.getLast?.getD store

instance : Monad Migrating where
  pure value := fun _ => (.ok value, [])
  bind first next := fun store =>
    match first store with
    | (.error error, committed) => (.error error, committed)
    | (.ok value, committed) =>
        let (outcome, more) := next value (latest store committed)
        (outcome, committed ++ more)

/-- Stop. -/
def refuse (error : KernelError) : Migrating α := fun _ => (.error error, [])

/-- One transaction: it commits what it has buffered, or nothing at all. -/
def transact (body : Write α) : Migrating α := fun store =>
    match body.run (.begin store) with
    | (.ok value, after) => (.ok value, [Overlay.apply store after.transaction.pending])
    | (.error error, _) => (.error error, [])

end Migrating

namespace Migration

/-- How many keys one transaction of a migration works through. -/
def BACKFILL_BATCH : Nat := 1000

section

variable [Platform]

/-- The rows of a table that a build has not come to. -/
def buildRange (table : TableDef) (after : Option Bytes) : KeyRange :=
  let range := KeyRange.ofPrefix (Keys.tablePrefix table)
  match after with
  | none => range
  | some last => range.intersect ⟨.excluded last, .unbounded⟩

/-- A row under its key. -/
structure KeyedRow where
  key : Bytes
  primaryKey : List Value
  row : Row

def readKeyedRow (table : TableDef) (pair : KeyValue) :
    Except KernelError KeyedRow := do
  let primaryKey ← Keys.decodeRowKey table pair.key
  let row ← liftSchema (decodeRow table primaryKey pair.value)
  return ⟨pair.key, primaryKey, row⟩

def readKeyedRows (table : TableDef) :
    List KeyValue → Except KernelError (List KeyedRow)
  | [] => .ok []
  | pair :: rest => do
      let row ← readKeyedRow table pair
      let rows ← readKeyedRows table rest
      return row :: rows

/-- The next rows of a table that a build works through. -/
def readBatch (table : TableDef) (after : Option Bytes)
    (snapshot : Snapshot) : Except KernelError (List KeyedRow) :=
  readKeyedRows table
    ((snapshot.scan (buildRange table after) .ascending).take BACKFILL_BATCH)

/-- The entry that a build writes for a row that its index admits. -/
def backfillEntry (table : TableDef) (index : IndexDef) (keyed : KeyedRow) :
    Keys.IndexEntry :=
  Keys.indexEntry table index (index.keyValues keyed.row) keyed.primaryKey

def writeBackfillEntry (table : TableDef) (index : IndexDef)
    (keyed : KeyedRow) : Write Unit :=
  let entry := backfillEntry table index keyed
  if entry.enforcesUniqueness then do
    Write.reading (RecordTransaction.checkUnique table index entry keyed.primaryKey)
    Write.put entry.key entry.value
  else
    Write.put entry.key entry.value

/-- What one transaction of a build has done. -/
structure Batch where
  scanned : Nat
  last : Option Bytes
  written : Nat

/-- Write the entries of the next rows. -/
def buildBatch (table : TableDef) (index : IndexDef)
    (after : Option Bytes) : Write Batch := do
  let rows ← Write.reading (readBatch table after)
  let admitted := rows.filter (fun keyed => index.admits keyed.row)
  Write.forEach (writeBackfillEntry table index) admitted
  return ⟨rows.length, rows.getLast?.map KeyedRow.key, admitted.length⟩

/--
Write the entries of every row from a key on.  Every transaction but the last
comes to a further key, so there are no more of them than keys.
-/
def buildFrom (table : TableDef) (index : IndexDef) :
    Nat → Option Bytes → Nat → Migrating Nat
  | 0, _, written => pure written
  | fuel + 1, after, written => do
      let batch ← Migrating.transact (buildBatch table index after)
      if batch.scanned < BACKFILL_BATCH then
        return written + batch.written
      else
        buildFrom table index fuel batch.last (written + batch.written)

/-- Write every row's entry in an index; how many entries there were. -/
def build (table : TableDef) (index : IndexDef) : Migrating Nat := fun store =>
    (buildFrom table index (store.toList.length + 1) none 0).run store

/-- Delete the first entries of an index; how many there were. -/
def dropBatch (index : IndexId) : Write Nat := do
  let dead ← Write.reading (fun snapshot =>
    .ok ((snapshot.scan (KeyRange.ofPrefix (Keys.indexPrefixOf index))
      .ascending).take BACKFILL_BATCH))
  Write.forEach (fun pair : KeyValue => Write.delete pair.key) dead
  return dead.length

/-- Delete every entry of an index, in transactions that each delete some. -/
def dropFrom (index : IndexId) : Nat → Migrating Unit
  | 0 => pure ()
  | fuel + 1 => do
      let batch ← Migrating.transact (dropBatch index)
      if batch < BACKFILL_BATCH then
        return ()
      else
        dropFrom index fuel

/-- Delete every entry of an index that is no longer declared. -/
def dropEntries (index : IndexId) : Migrating Unit :=
  fun store => (dropFrom index (store.toList.length + 1)).run store

/-! ## Applying a plan -/

/-- What a migration did. -/
structure Report where
  steps : List Step := []
  entriesWritten : List Nat := []

/-- The table and the index that a step names. -/
def resolve (catalog : Catalog) (table : TableId) (index : IndexId) :
    Except KernelError (TableDef × IndexDef) :=
  match catalog.table table with
  | none =>
      .error (.migrationRefused ("no table " ++ toString table ++ " in the catalog"))
  | some table =>
      match table.index index with
      | none =>
          .error (.migrationRefused
            ("no index " ++ toString index ++ " on `" ++ table.name ++ "`"))
      | some index => .ok (table, index)

/-- Carry out one step; the entries it wrote, if it builds an index. -/
def runStep (catalog : Catalog) : Step → Migrating (Option Nat)
  | .buildIndex table index _ =>
      match resolve catalog table index with
      | .error error => Migrating.refuse error
      | .ok (table, index) => do
          let written ← build table index
          return some written
  | .dropIndex _ index => do
      dropEntries index
      return none
  | _ => return none

def runSteps (catalog : Catalog) : List Step → Report → Migrating Report
  | [], report => pure report
  | step :: rest, report => do
      let written ← runStep catalog step
      runSteps catalog rest {
        steps := report.steps ++ [step]
        entriesWritten := report.entriesWritten ++ written.toList }

/-- What is recorded about a table that has been migrated. -/
def migratedState (table : TableDef) : TableState where
  schemaVersion := table.schemaVersion
  fingerprint := fingerprint table
  built := table.indexes.map IndexDef.id
  schema := some (.of table)

/-- Record the state of every table that a plan touches. -/
def recordStates (catalog : Catalog) (plan : MigrationPlan) : Write Unit :=
  Write.forEach (fun table : TableDef =>
      Write.put (Keys.metaKey table.id) (encodeState (migratedState table)))
    (catalog.tables.filter (fun table =>
      plan.steps.any (fun step => step.touches table.id)))

/-- Apply a plan, or refuse the whole of it. -/
def apply (catalog : Catalog) (plan : MigrationPlan) : Migrating Report :=
  if plan.isBlocked then
    Migrating.refuse (.migrationRefused plan.whyBlocked)
  else do
    let report ← runSteps catalog plan.steps {}
    Migrating.transact (recordStates catalog plan)
    return report

/-- The plan of a catalog over what is committed. -/
def plan (store : Kv) (catalog : Catalog) : MigrationPlan :=
  planOf (RecordState.begin store).transaction catalog

end

end Migration

end SlateOrm
