import SlateOrm.Schema

namespace SlateOrm

/-!
# Keyspace layout

Rows and index entries live in one ordered key space.  A key starts with a
space byte and a table or index id, so every table and every index is a
contiguous range; on a table with tenants, so is every tenant's share of both.
-/

/-- Why a call on the kernel failed. -/
inductive KernelError where
  | schema (source : SchemaError)
  | keyDecode (source : TupleError)
  | unknownTable (table : TableId)
  | uniqueViolation (table index : String)
  | duplicatePrimaryKey (table : String)
  | rowNotFound (table : String)
  | accessDenied (table action : String)
  | columnsWithheld (table action : String)
  | invalidGrant (table reason : String)
  | tenantRequired (table : String)
  | rowCheckFailed (table : String)
  | softDeleteColumnSupplied (table column : String)
  | rowChanged (table : String)
  | invalidCursor (table reason : String)
  | corruptIndexEntry (table index : String)
  | noSuchColumn (table : String) (ordinal : Ordinal)
  | duplicateAssignment (table : String) (ordinal : Ordinal)
  | comparisonTypeMismatch (table : String) (left right : Ordinal)
  | decimalScale (table : String) (refusal : ScaleRefusal)
  | notSummable (found : String)
  | tooManyGroups (limit : Nat)
  | tooManyDistinctValues (limit : Nat)
  | sortTooLarge (limit : Nat)
  | windowTooLarge (limit : Nat)
  | inListTooLarge (limit actual : Nat)
  | predicateWriteTooLarge (limit : Nat)
  | notSoftDeleting (table : String)
  | migrationRefused (reason : String)
  | joinNotSupported (reason : String)
  | joinBuildTooLarge (table : String) (limit : Nat)
  deriving DecidableEq, Repr

/-- A schema failure, as the kernel reports it. -/
def liftSchema {α : Type} : Except SchemaError α → Except KernelError α
  | .ok value => .ok value
  | .error source => .error (.schema source)

/-- A failure to decode a key, as the kernel reports it. -/
def liftTuple {α : Type} : Except TupleError α → Except KernelError α
  | .ok value => .ok value
  | .error source => .error (.keyDecode source)

namespace Keys

def ROW_SPACE : UInt8 := 0x01
def INDEX_SPACE : UInt8 := 0x02
def META_SPACE : UInt8 := 0x03

/-- The length of a space byte and an id. -/
def HEADER_LEN : Nat := 1 + 4

def header (space : UInt8) (id : UInt32) : Bytes := space :: toBeBytes 4 id.toNat

/-- What every row key of a table starts with. -/
def tablePrefix (table : TableDef) : Bytes := header ROW_SPACE table.id

/-- The key of a row. -/
def rowKey (table : TableDef) (primaryKey : List Value) : Bytes :=
  tablePrefix table ++ encode primaryKey

/-- The key that holds a table's schema state. -/
def metaKey (table : TableId) : Bytes := header META_SPACE table

/-- What every entry of an index starts with, given its id alone. -/
def indexPrefixOf (index : IndexId) : Bytes := header INDEX_SPACE index

/-- The primary key a row key holds. -/
def decodeRowKey (table : TableDef) (key : Bytes) : Except KernelError (List Value) :=
  if key.length < HEADER_LEN then
    .error (.keyDecode (.truncated key.length (HEADER_LEN - key.length)))
  else
    liftTuple (decode (key.drop HEADER_LEN) table.primaryKeyTypes)

/-- What every entry of an index starts with, or one tenant's entries. -/
def indexPrefix (table : TableDef) (index : IndexDef) (tenant : Option Value) : Bytes :=
  header INDEX_SPACE index.id ++ (match table.tenantColumn, tenant with
      | some _, some tenant => encodeValue .asc tenant
      | _, _ => [])

/-- An entry of an index, as it is stored. -/
structure IndexEntry where
  key : Bytes
  /-- Empty unless the key leaves the primary key out. -/
  value : Bytes
  /-- Whether writing the key twice is a uniqueness violation. -/
  enforcesUniqueness : Bool
  deriving DecidableEq, Repr

/-- The tenant of a row: the first value of its primary key. -/
def tenantValue (table : TableDef) (primaryKey : List Value) : Option Value :=
  match table.tenantColumn with
  | none => none
  | some _ => primaryKey.head?

/--
The entry an index holds for a row.  A unique index without nulls leaves the
primary key out of the key, so that two rows in one slot share a key.
-/
def indexEntry (table : TableDef) (index : IndexDef)
    (indexValues primaryKey : List Value) : IndexEntry :=
  let tenant :=
    match tenantValue table primaryKey with
    | some tenant => encodeValue .asc tenant
    | none => []
  let slot := header INDEX_SPACE index.id ++ tenant ++
      (indexValues.zip index.keyDirections).flatMap
        (fun pair => encodeValue pair.2 pair.1)
  if index.unique && !indexValues.any Value.isNull then
    ⟨slot, encode primaryKey, true⟩
  else
    ⟨slot ++ encode primaryKey, [], false⟩

/-- What follows the tenant in the key of an index entry. -/
def afterTenant (table : TableDef) (index : IndexDef) (body : Bytes) :
    Except KernelError Bytes :=
  if table.tenantColumn.isSome then
    match table.primaryKeyTypes.head? with
    | none => .error (.corruptIndexEntry table.name index.name)
    | some tenantType => do
        let (_, rest) ← liftTuple (decodePrefix body [tenantType])
        return rest
  else
    .ok body

/-- The indexed values and the primary key of a stored index entry. -/
def decodeIndexEntry (table : TableDef) (index : IndexDef) (key value : Bytes) :
    Except KernelError (List Value × List Value) := do
  let corrupt := KernelError.corruptIndexEntry table.name index.name
  if key.length < HEADER_LEN then
    .error corrupt
  else do
    let body ← afterTenant table index (key.drop HEADER_LEN)
    let (indexValues, rest) ←
      liftTuple (decodePrefixWith body (table.indexKeyTypes index) index.keyDirections)
    -- Where the primary key lives is decided by the rule that built the entry.
    if index.unique && !indexValues.any Value.isNull then
      if !rest.isEmpty then
        .error corrupt
      else do
        let primaryKey ← liftTuple (decode value table.primaryKeyTypes)
        return (indexValues, primaryKey)
    else if !value.isEmpty then
      .error corrupt
    else do
      let primaryKey ← liftTuple (decode rest table.primaryKeyTypes)
      return (indexValues, primaryKey)

end Keys

section

variable [Platform]

/-- The entries an index holds for a row that it admits. -/
def entriesFor (table : TableDef) (index : IndexDef) (row : Row) :
    List Keys.IndexEntry :=
  (index.keySets row).map (fun values =>
    Keys.indexEntry table index values (row.primaryKeyValues table))

/-- The entries an index holds for a row: none, unless it admits it. -/
def admittedEntries (table : TableDef) (index : IndexDef) (row : Row) :
    List Keys.IndexEntry :=
  if index.admits row then entriesFor table index row else []

end

end SlateOrm
