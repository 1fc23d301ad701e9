import SlateOrm.ExprCanonical
import Mathlib.Data.Finset.Card
import Mathlib.Data.Finset.Lattice.Fold

namespace SlateOrm

/-!
# Tables, rows and catalogs

A table is what its builder makes of a declaration.  A row is checked against
its table, and its body is the encoding of the columns that are neither part of
the primary key nor dropped, under the schema version it was written at.
-/

/-! ## Checks in sequence -/

/-- Make a check of every element, and stop at the first that fails. -/
def checkEach {ε α : Type} (check : α → Except ε Unit) : List α → Except ε Unit
  | [] => .ok ()
  | value :: rest => do
      check value
      checkEach check rest

theorem checkEach_eq_ok
    {ε α : Type} {check : α → Except ε Unit} {values : List α}
    (passed : checkEach check values = .ok ()) :
    ∀ value ∈ values, check value = .ok () := by
  induction values with
  | nil => simp
  | cons value rest ih =>
      intro other member
      rw [checkEach] at passed
      cases checked : check value with
      | error error =>
          rw [checked] at passed
          cases passed
      | ok _ =>
          rw [checked] at passed
          rcases List.mem_cons.mp member with same | inRest
          · rw [same, checked]
          · exact ih passed other inRest

/-! ## Declarations -/

abbrev TableId := UInt32
abbrev IndexId := UInt32

/-- Rows whose values are equal, column by column. -/
def Row.Same (first second : Row) : Prop :=
  first.values.map Value.canonical = second.values.map Value.canonical

/--
Something that judges a row: an expression of the kernel, or another
implementation, whose answer is a function of the row's values.
-/
inductive Predicate where
  | expr (expression : Expr)
  | custom (judge : Row → Option Bool) (respects : ∀ first second : Row,
        first.Same second → judge first = judge second)

/--
Something that computes a value from a row: a scalar of the kernel, or another
implementation, whose answer is a function of the row's values.
-/
inductive Computed where
  | scalar (expression : Scalar)
  | custom (compute : Row → Value) (respects : ∀ first second : Row, first.Same second →
        (compute first).canonical = (compute second).canonical)

section

variable [Platform]

/-- The predicate's truth for a row; a null may leave it unknown. -/
def Predicate.truth (predicate : Predicate) (row : Row) : Option Bool :=
  match predicate with
  | .expr expression =>
      match expression.evaluate row with
      | .true => some Bool.true
      | .false => some Bool.false
      | .unknown => none
  | .custom judge _ => judge row

/-- The value computed from a row. -/
def Computed.value (computed : Computed) (row : Row) : Value :=
  match computed with
  | .scalar expression => expression.evaluate row.get
  | .custom compute _ => compute row

end

/-- Columns whose value the store supplies. -/
inductive Managed where
  | createdAt
  | updatedAt
  deriving DecidableEq, Repr

/-- A column of a table. -/
structure ColumnDef where
  name : String
  type : ValueType
  nullable : Bool
  addedIn : UInt32
  droppedIn : Option UInt32 := none
  default : Option Value := none
  previousNames : List String := []
  scale : UInt8 := 0
  element : Option ValueType := none
  managed : Option Managed := none

namespace ColumnDef

/-- The scale of a decimal column. -/
def decimalScale (column : ColumnDef) : Option UInt8 :=
  if column.type = .decimal then some column.scale else none

/-- The element type of an array column. -/
def elementType (column : ColumnDef) : Option ValueType :=
  if column.type = .array then column.element else none

def isDropped (column : ColumnDef) : Bool := column.droppedIn.isSome

end ColumnDef

/-- One column of an index, with its sort direction. -/
structure IndexColumn where
  ordinal : Ordinal
  direction : Direction
  deriving DecidableEq, Repr

/-- The computed key of an index. -/
structure IndexExpression where
  compute : Computed
  produces : ValueType
  direction : Direction

/-- An index of a table. -/
structure IndexDef where
  id : IndexId
  name : String
  columns : List IndexColumn
  unique : Bool
  predicate : Option Predicate
  expression : Option IndexExpression
  text : Bool

/-- A constraint on every row of a table. -/
structure CheckDef where
  name : String
  predicate : Predicate
  column : Option String := none
  message : Option String := none

/-- What happens to the rows that reference a deleted one. -/
inductive ReferentialAction where
  | restrict
  | cascade
  deriving DecidableEq, Repr

/-- A reference to the primary key of another table. -/
structure ForeignKeyDef where
  name : String
  columns : List Ordinal
  parent : TableId
  onDelete : ReferentialAction
  deriving DecidableEq, Repr

/-- A table. -/
structure TableDef where
  id : TableId
  name : String
  columns : List ColumnDef
  primaryKey : List Ordinal
  bodyColumns : List Ordinal
  storedColumns : List Ordinal
  indexes : List IndexDef
  checks : List CheckDef
  foreignKeys : List ForeignKeyDef
  tenantColumn : Option Ordinal
  softDelete : Option Ordinal
  schemaVersion : UInt32

namespace TableDef

def column (table : TableDef) (ordinal : Ordinal) : Option ColumnDef :=
  table.columns[ordinal]?

/-- The types of the given columns; one out of range reads as bytes. -/
def keyTypes (table : TableDef) (ordinals : List Ordinal) : List ValueType :=
  ordinals.map (fun ordinal =>
    match table.column ordinal with
    | some column => column.type
    | none => .bytes)

def primaryKeyTypes (table : TableDef) : List ValueType :=
  table.keyTypes table.primaryKey

/-- The types of an index's keys. -/
def indexKeyTypes (table : TableDef) (index : IndexDef) : List ValueType :=
  match index.expression with
  | some expression => [expression.produces]
  | none => table.keyTypes (index.columns.map IndexColumn.ordinal)

def index (table : TableDef) (id : IndexId) : Option IndexDef :=
  table.indexes.find? (fun index => index.id == id)

/-- Whether a table has columns whose values the store supplies. -/
def isManaged (table : TableDef) : Bool :=
  table.columns.any (fun column => column.managed.isSome)

end TableDef

/-! ## Errors -/

/-- One check a row did not satisfy. -/
structure CheckFailure where
  check : String
  column : Option String
  message : Option String
  deriving DecidableEq, Repr

/-- A declaration was rejected, or a row did not match its table. -/
inductive SchemaError where
  | managedColumnNotTimestamp (table column : String) (found : ValueType)
  | managedColumnNullable (table column : String)
  | managedColumnInKey (table column : String)
  | softDeleteNotTimestamp (table column : String) (found : ValueType)
  | softDeleteNotNullable (table column : String)
  | softDeleteManaged (table column : String)
  | scaleTooLarge (table column : String) (scale max : UInt8)
  | unknownColumn (table column : String)
  | duplicateColumn (table column : String)
  | vectorInKey (table key column : String)
  | arrayInKey (table key column : String)
  | arrayWithoutElementType (table column : String)
  | nestedArrayColumn (table column : String)
  | arrayElementTypeMismatch (table column : String) (index : Nat)
      (expected : ValueType) (actual : String)
  | missingPrimaryKey (table : String)
  | duplicateKeyColumn (table key column : String)
  | nullablePrimaryKeyColumn (table column : String)
  | duplicateIndex (table index : String)
  | indexValueTypeMismatch (table index : String) (expected : ValueType)
      (actual : String)
  | emptyIndex (table index : String)
  | unindexableText (table index reason : String)
  | tenantColumnNotKeyPrefix (table column : String)
  | duplicateTable (table : String)
  | duplicateIndexId (id : IndexId) (index table existing existingTable : String)
  | columnCountMismatch (table : String) (expected actual : Nat)
  | valueTypeMismatch (table column : String) (expected : ValueType) (actual : String)
  | unexpectedNull (table column : String)
  | rowDecode (table : String) (source : TupleError)
  | rowFromFutureSchema (table : String) (found known : UInt32)
  | unsupportedRowFormat (table : String) (format : UInt8)
  | ambiguousColumnName (table name : String)
  | columnDroppedBeforeAdded (table column : String) (addedIn droppedIn : UInt32)
  | columnDroppedInFutureVersion (table column : String)
      (droppedIn schemaVersion : UInt32)
  | droppedColumnInKey (table key column : String)
  | droppedColumnHasDefault (table column : String)
  | nullDefault (table column : String)
  | droppedColumnValue (table column : String)
  | duplicateCheck (table check : String)
  | emptyCheckMessage (table check : String)
  | duplicateForeignKey (table foreignKey : String)
  | emptyForeignKey (table foreignKey : String)
  | unknownForeignKeyParent (table foreignKey : String) (parent : TableId)
  | foreignKeyWidthMismatch (table foreignKey parent : String) (expected actual : Nat)
  | foreignKeyTypeMismatch (table foreignKey parent column : String)
      (expected actual : ValueType)
  | checkViolation (table : String) (violations : List CheckFailure)
  | foreignKeyViolation (table foreignKey parent : String)
  | crossTenantForeignKey (table foreignKey parent : String)
      (action : ReferentialAction)
  | foreignKeyRestricted (table child foreignKey : String) (retired : Bool)
  | cascadeTooLarge (table : String) (limit : Nat)
  | incompatibleSchemaEvolution (table column : String) (written : UInt32)
  deriving DecidableEq, Repr

/-! ## Building a table -/

/-- An index as it is declared, with its columns by name. -/
structure IndexBuilder where
  id : IndexId
  name : String
  columns : List (String × Direction) := []
  unique : Bool := false
  predicate : Option Predicate := none
  expression : Option IndexExpression := none
  text : Bool := false

/-- A foreign key as it is declared, with its columns by name. -/
structure ForeignKeyBuilder where
  name : String
  columns : List String := []
  parent : TableId
  onDelete : ReferentialAction := .restrict

/-- A change to a column declared before. -/
inductive ColumnChange where
  | default (column : String) (value : Value)
  | dropped (column : String) (version : UInt32)
  | renamed (column previous : String)

def ColumnChange.column : ColumnChange → String
  | .default column _ => column
  | .dropped column _ => column
  | .renamed column _ => column

/-- A column as it is declared, before any change. -/
structure ColumnSpec where
  name : String
  type : ValueType
  nullable : Bool := false
  addedIn : UInt32 := 0
  scale : UInt8 := 0
  element : Option ValueType := none
  managed : Option Managed := none

/-- A declared column, neither dropped nor renamed nor given a default. -/
def ColumnSpec.toColumn (spec : ColumnSpec) : ColumnDef where
  name := spec.name
  type := spec.type
  nullable := spec.nullable
  addedIn := spec.addedIn
  scale := spec.scale
  element := spec.element
  managed := spec.managed

/-- A table as it is declared. -/
structure TableBuilder where
  id : TableId
  name : String
  columns : List ColumnSpec := []
  primaryKey : List String := []
  indexes : List IndexBuilder := []
  checks : List CheckDef := []
  foreignKeys : List ForeignKeyBuilder := []
  tenantColumn : Option String := none
  softDelete : Option String := none
  schemaVersion : UInt32 := 0
  changes : List ColumnChange := []

/-- The largest scale a decimal column may have. -/
def MAX_SCALE : UInt8 := 18

/-- No name may be declared twice. -/
def checkDuplicateColumns (table : String) :
    List String → List ColumnDef → Except SchemaError Unit
  | _, [] => .ok ()
  | seen, column :: rest =>
      if seen.contains column.name then
        .error (.duplicateColumn table column.name)
      else
        checkDuplicateColumns table (column.name :: seen) rest

/-- An array says what it holds, and a decimal's scale is small enough. -/
def checkColumnType (table : String) (column : ColumnDef) : Except SchemaError Unit :=
  if column.type = .array ∧ column.element = none then
    .error (.arrayWithoutElementType table column.name)
  else if column.type = .array ∧ column.element = some .array then
    .error (.nestedArrayColumn table column.name)
  else if column.type = .decimal ∧ MAX_SCALE < column.scale then
    .error (.scaleTooLarge table column.name column.scale MAX_SCALE)
  else
    .ok ()

/-- A managed column is a timestamp that is always there, outside the key. -/
def checkManaged (table : String) (primaryKey : List String)
    (column : ColumnDef) : Except SchemaError Unit :=
  if column.managed.isNone then
    .ok ()
  else if column.type ≠ .i64 then
    .error (.managedColumnNotTimestamp table column.name column.type)
  else if column.nullable then
    .error (.managedColumnNullable table column.name)
  else if primaryKey.contains column.name then
    .error (.managedColumnInKey table column.name)
  else
    .ok ()

/-- The text that a type error reports for a value. -/
def Value.typeName (value : Value) : String :=
  match value.valueType with
  | none => "null"
  | some type => type.name

/-- One change, applied to the column it names. -/
def changeColumn (table : String) (schemaVersion : UInt32)
    (change : ColumnChange) (column : ColumnDef) :
    Except SchemaError ColumnDef :=
  match change with
  | .default name value =>
      match value.valueType with
      | none => .error (.nullDefault table name)
      | some actual =>
          if actual ≠ column.type then
            .error (.valueTypeMismatch table name column.type value.typeName)
          else
            .ok { column with default := some value }
  | .dropped name version =>
      if version ≤ column.addedIn then
        .error (.columnDroppedBeforeAdded table name column.addedIn version)
      else if schemaVersion < version then
        .error (.columnDroppedInFutureVersion table name version schemaVersion)
      else
        .ok { column with droppedIn := some version }
  | .renamed _ previous =>
      .ok { column with previousNames := column.previousNames ++ [previous] }

/-- Apply a change to the first column of its name. -/
def changeColumns (table : String) (schemaVersion : UInt32) (change : ColumnChange) :
    List ColumnDef → Except SchemaError (List ColumnDef)
  | [] => .error (.unknownColumn table change.column)
  | column :: rest =>
      if column.name = change.column then do
        let changed ← changeColumn table schemaVersion change column
        return changed :: rest
      else do
        let others ← changeColumns table schemaVersion change rest
        return column :: others

/-- Apply the declared changes in order. -/
def applyChanges (table : String) (schemaVersion : UInt32) :
    List ColumnChange → List ColumnDef → Except SchemaError (List ColumnDef)
  | [], columns => .ok columns
  | change :: rest, columns => do
      let columns ← changeColumns table schemaVersion change columns
      applyChanges table schemaVersion rest columns

/-- Every current and previous name belongs to one column. -/
def checkNameResolution (table : String) :
    List String → List String → Except SchemaError Unit
  | _, [] => .ok ()
  | seen, name :: rest =>
      if seen.contains name then
        .error (.ambiguousColumnName table name)
      else
        checkNameResolution table (name :: seen) rest

/-- A dropped column has nothing to default to. -/
def checkEvolution (table : String) (column : ColumnDef) : Except SchemaError Unit :=
  if column.isDropped ∧ column.default.isSome then
    .error (.droppedColumnHasDefault table column.name)
  else
    .ok ()

/-- The position of the column of a name. -/
def resolve (table : String) (columns : List ColumnDef) (name : String) :
    Except SchemaError Ordinal :=
  match columns.findIdx? (fun column => column.name == name) with
  | some ordinal => .ok ordinal
  | none => .error (.unknownColumn table name)

def rejectDropped (columns : List ColumnDef) (ordinal : Ordinal)
    (table key column : String) : Except SchemaError Unit :=
  match columns[ordinal]? with
  | some found =>
      if found.isDropped then
        .error (.droppedColumnInKey table key column)
      else
        .ok ()
  | none => .ok ()

/-- Neither vectors nor arrays are keys. -/
def rejectUnkeyable (columns : List ColumnDef) (ordinal : Ordinal)
    (table key column : String) : Except SchemaError Unit :=
  match (columns[ordinal]?).map ColumnDef.type with
  | some .vector => .error (.vectorInKey table key column)
  | some .array => .error (.arrayInKey table key column)
  | _ => .ok ()

/-- The columns of the primary key, after those already resolved. -/
def buildPrimaryKey (table : String) (columns : List ColumnDef) :
    List Ordinal → List String → Except SchemaError (List Ordinal)
  | key, [] => .ok key
  | key, name :: rest => do
      let ordinal ← resolve table columns name
      if key.contains ordinal then
        .error (.duplicateKeyColumn table "primary key" name)
      else if (columns[ordinal]?).any ColumnDef.nullable then
        .error (.nullablePrimaryKeyColumn table name)
      else do
        rejectUnkeyable columns ordinal table "primary key" name
        rejectDropped columns ordinal table "primary key" name
        buildPrimaryKey table columns (key ++ [ordinal]) rest

/-- The tenant column is the first of the primary key. -/
def buildTenantColumn (table : String) (columns : List ColumnDef)
    (primaryKey : List Ordinal) :
    Option String → Except SchemaError (Option Ordinal)
  | none => .ok none
  | some name => do
      let ordinal ← resolve table columns name
      if primaryKey.head? ≠ some ordinal then
        .error (.tenantColumnNotKeyPrefix table name)
      else
        .ok (some ordinal)

/-- The soft-delete column is a timestamp that may be null. -/
def buildSoftDelete (table : String) (columns : List ColumnDef) :
    Option String → Except SchemaError (Option Ordinal)
  | none => .ok none
  | some name => do
      let ordinal ← resolve table columns name
      match columns[ordinal]? with
      | none => .error (.unknownColumn table name)
      | some column =>
          if column.type ≠ .i64 then
            .error (.softDeleteNotTimestamp table name column.type)
          else if !column.nullable then
            .error (.softDeleteNotNullable table name)
          else if column.managed.isSome then
            .error (.softDeleteManaged table name)
          else
            .ok (some ordinal)

/-- The columns of an index, after those already resolved. -/
def buildIndexColumns (table : String) (columns : List ColumnDef) (index : String) :
    List IndexColumn → List (String × Direction) → Except SchemaError (List IndexColumn)
  | key, [] => .ok key
  | key, (name, direction) :: rest => do
      let ordinal ← resolve table columns name
      if key.any (fun column => column.ordinal == ordinal) then
        .error (.duplicateKeyColumn table index name)
      else do
        rejectUnkeyable columns ordinal table index name
        rejectDropped columns ordinal table index name
        buildIndexColumns table columns index (key ++ [⟨ordinal, direction⟩]) rest

/-- Why an index cannot be a full-text index. -/
def textRefusalOf (columns : List ColumnDef) (spec : IndexBuilder)
    (key : List IndexColumn) : Option String :=
  if spec.unique then
    some "is also unique, which no realistic text can satisfy: a term appears in many rows by construction"
  else if key.length ≠ 1 then
    some "names more than one column, and a cross product of two columns' terms is a different and much larger structure"
  else if ((key.head?).bind
      (fun column => columns[column.ordinal]?)).map ColumnDef.type ≠
      some .str then
    some "keys on a column that is not a string"
  else
    none

/-- One index, given those built before it. -/
def buildIndex (table : String) (columns : List ColumnDef)
    (built : List IndexDef) (spec : IndexBuilder) :
    Except SchemaError IndexDef :=
  if spec.text ∧ spec.expression.isSome then
    .error (.unindexableText table spec.name
      "also keys on an expression, and a term is not a computed value")
  else if spec.columns.isEmpty = spec.expression.isNone then
    .error (.emptyIndex table spec.name)
  else if built.any
      (fun index => index.id == spec.id || index.name == spec.name) then
    .error (.duplicateIndex table spec.name)
  else do
    let key ← buildIndexColumns table columns spec.name [] spec.columns
    match (if spec.text then textRefusalOf columns spec key else none) with
    | some reason => .error (.unindexableText table spec.name reason)
    | none =>
        .ok {
          id := spec.id
          name := spec.name
          columns := key
          unique := spec.unique
          predicate := spec.predicate
          expression := spec.expression
          text := spec.text }

/-- The indexes of a table, after those already built. -/
def buildIndexes (table : String) (columns : List ColumnDef) :
    List IndexDef → List IndexBuilder → Except SchemaError (List IndexDef)
  | built, [] => .ok built
  | built, spec :: rest => do
      let index ← buildIndex table columns built spec
      buildIndexes table columns (built ++ [index]) rest

/-- The characters that count as white space. -/
def isWhitespace (char : Char) : Bool :=
  let code := char.toNat
  (9 ≤ code && code ≤ 13) || code == 0x20 || code == 0x85 || code == 0xA0 ||
    code == 0x1680 || (0x2000 ≤ code && code ≤ 0x200A) || code == 0x2028 ||
    code == 0x2029 || code == 0x202F || code == 0x205F || code == 0x3000

/-- Checks have names of their own and messages that say something. -/
def checkChecks (table : String) : List String → List CheckDef → Except SchemaError Unit
  | _, [] => .ok ()
  | seen, check :: rest =>
      if seen.contains check.name then
        .error (.duplicateCheck table check.name)
      else if check.message.any (fun text => text.toList.all isWhitespace) then
        .error (.emptyCheckMessage table check.name)
      else
        checkChecks table (check.name :: seen) rest

/-- The columns of a foreign key, after those already resolved. -/
def buildForeignKeyColumns (table : String) (columns : List ColumnDef)
    (foreignKey : String) :
    List Ordinal → List String → Except SchemaError (List Ordinal)
  | key, [] => .ok key
  | key, name :: rest => do
      let ordinal ← resolve table columns name
      if key.contains ordinal then
        .error (.duplicateKeyColumn table foreignKey name)
      else do
        rejectDropped columns ordinal table foreignKey name
        buildForeignKeyColumns table columns foreignKey (key ++ [ordinal]) rest

/-- The foreign keys of a table, after those already built. -/
def buildForeignKeys (table : String) (columns : List ColumnDef) :
    List ForeignKeyDef → List ForeignKeyBuilder →
      Except SchemaError (List ForeignKeyDef)
  | built, [] => .ok built
  | built, spec :: rest =>
      if spec.columns.isEmpty then
        .error (.emptyForeignKey table spec.name)
      else if built.any (fun key => key.name == spec.name) then
        .error (.duplicateForeignKey table spec.name)
      else do
        let key ← buildForeignKeyColumns table columns spec.name [] spec.columns
        buildForeignKeys table columns
          (built ++ [⟨spec.name, key, spec.parent, spec.onDelete⟩]) rest

/-- Check a declaration and make the table. -/
def TableBuilder.build (builder : TableBuilder) : Except SchemaError TableDef := do
  let table := builder.name
  let declared := builder.columns.map ColumnSpec.toColumn
  checkDuplicateColumns table [] declared
  checkEach (checkColumnType table) declared
  checkEach (checkManaged table builder.primaryKey) declared
  let columns ← applyChanges table builder.schemaVersion builder.changes declared
  checkNameResolution table []
    (columns.flatMap (fun column => column.name :: column.previousNames))
  checkEach (checkEvolution table) columns
  if builder.primaryKey.isEmpty then
    .error (.missingPrimaryKey table)
  else do
    let primaryKey ← buildPrimaryKey table columns [] builder.primaryKey
    let tenantColumn ← buildTenantColumn table columns primaryKey builder.tenantColumn
    let softDelete ← buildSoftDelete table columns builder.softDelete
    let indexes ← buildIndexes table columns [] builder.indexes
    checkChecks table [] builder.checks
    let foreignKeys ← buildForeignKeys table columns [] builder.foreignKeys
    let bodyColumns := (List.range columns.length).filter
        (fun ordinal => !primaryKey.contains ordinal)
    let storedColumns := bodyColumns.filter
        (fun ordinal => !(columns[ordinal]?).any ColumnDef.isDropped)
    return {
      id := builder.id
      name := builder.name
      columns := columns
      primaryKey := primaryKey
      bodyColumns := bodyColumns
      storedColumns := storedColumns
      indexes := indexes
      checks := builder.checks
      foreignKeys := foreignKeys
      tenantColumn := tenantColumn
      softDelete := softDelete
      schemaVersion := builder.schemaVersion }

/-! ## Rows -/

/-- A set of column ordinals. -/
abbrev ColumnSet := Finset Ordinal

/-- Whether a set has as many columns as a table. -/
def ColumnSet.coversAll (set : ColumnSet) (columns : Nat) : Bool := columns ≤ set.card

def Row.valueOrNull (row : Row) (ordinal : Ordinal) : Value :=
  (row.get ordinal).getD .null

def Row.project (row : Row) (ordinals : List Ordinal) : List Value :=
  ordinals.map row.valueOrNull

def Row.primaryKeyValues (row : Row) (table : TableDef) : List Value :=
  row.project table.primaryKey

def Row.indexValues (row : Row) (index : IndexDef) : List Value :=
  row.project (index.columns.map IndexColumn.ordinal)

/-- Every element of an array has the declared type. -/
def checkElements (table column : String) (element : ValueType) :
    Nat → List Value → Except SchemaError Unit
  | _, [] => .ok ()
  | index, item :: rest =>
      if item.valueType ≠ some element then
        .error (.arrayElementTypeMismatch table column index element item.typeName)
      else
        checkElements table column element (index + 1) rest

/-- A value fits its column. -/
def checkValue (table : String) (column : ColumnDef) (value : Value) :
    Except SchemaError Unit :=
  if column.isDropped then
    if value.isNull then
      .ok ()
    else
      .error (.droppedColumnValue table column.name)
  else
    match value.valueType with
    | none =>
        if column.nullable then
          .ok ()
        else
          .error (.unexpectedNull table column.name)
    | some actual =>
        if actual ≠ column.type then
          .error (.valueTypeMismatch table column.name column.type value.typeName)
        else
          match column.elementType, value with
          | some element, .array elements =>
              checkElements table column.name element 0 elements
          | _, _ => .ok ()

section

variable [Platform]

/-- An index expression computes what it declares, or a null. -/
def checkExpression (table : String) (row : Row) (index : IndexDef) :
    Except SchemaError Unit :=
  match index.expression with
  | none => .ok ()
  | some expression =>
      let value := expression.compute.value row
      match value.valueType with
      | none => .ok ()
      | some actual =>
          if actual ≠ expression.produces then
            .error (.indexValueTypeMismatch table index.name
              expression.produces value.typeName)
          else
            .ok ()

/-- Check a row against its table. -/
def Row.validate (row : Row) (table : TableDef) : Except SchemaError Unit :=
  if row.values.length ≠ table.columns.length then
    .error (.columnCountMismatch table.name table.columns.length row.values.length)
  else do
    checkEach (fun pair => checkValue table.name pair.1 pair.2)
      (table.columns.zip row.values)
    checkEach (checkExpression table.name row) table.indexes

namespace IndexDef

/-- Whether an index holds a row. -/
def admits (index : IndexDef) (row : Row) : Bool :=
  match index.predicate with
  | none => true
  | some predicate => predicate.truth row == some true

/-- The values an index holds a row under. -/
def keyValues (index : IndexDef) (row : Row) : List Value :=
  match index.expression with
  | some expression => [expression.compute.value row]
  | none => row.indexValues index

/-- The value lists an index holds a row under: one for each term of a text. -/
def keySets (index : IndexDef) (row : Row) : List (List Value) := if !index.text then
    [index.keyValues row]
  else
    match index.columns.head? with
    | none => []
    | some column =>
        match row.get column.ordinal with
        | some (.str text) => (tokenize text).map (fun term => [Value.str term])
        | _ => []

/-- The directions of an index's keys. -/
def keyDirections (index : IndexDef) : List Direction :=
  match index.expression with
  | some expression => [expression.direction]
  | none => index.columns.map IndexColumn.direction

end IndexDef

/-- A check accepts a row unless it is false of it. -/
def CheckDef.satisfiedBy (check : CheckDef) (row : Row) : Bool :=
  check.predicate.truth row != some false

end

/-- The key a row references, unless a column of it is null. -/
def ForeignKeyDef.parentKey (foreignKey : ForeignKeyDef) (row : Row) :
    Option (List Value) :=
  foreignKey.columns.mapM (fun ordinal =>
    match row.get ordinal with
    | none => none
    | some value => if value.isNull then none else some value)

/-! ## Row bodies -/

/-- The format byte of a row body. -/
def ROW_FORMAT_V1 : UInt8 := 1

/-- The body of a row: its format, the schema version, the stored columns. -/
def encodeBody (table : TableDef) (row : Row) : Bytes :=
  ROW_FORMAT_V1 :: toBeBytes 4 table.schemaVersion.toNat ++
    encode (row.project table.storedColumns)

/-- Whether a column was still there at a version, if it had been added. -/
def notYetDropped (column : ColumnDef) (version : UInt32) : Bool :=
  match column.droppedIn with
  | none => true
  | some dropped => version < dropped

/-- Whether a column is in the bodies written at a version. -/
def presentAt (column : ColumnDef) (version : UInt32) : Bool :=
  column.addedIn ≤ version && notYetDropped column version

/-- Put the primary key's values in their places. -/
def fillKey (table : TableDef) (primaryKey : List Value)
    (values : List Value) : List Value :=
  (table.primaryKey.zip primaryKey).foldl
    (fun values pair => values.set pair.1 pair.2) values

/-- Whether a column is wanted; without a set, every one is. -/
def isWanted (wanted : Option ColumnSet) (ordinal : Ordinal) : Bool :=
  match wanted with
  | none => true
  | some set => ordinal ∈ set

/--
Read the body columns in order.  A column that was not in the body reads as
its default, and one that is dropped or not wanted is skipped.
-/
def decodeColumns (table : TableDef) (written : UInt32) (wanted : Option ColumnSet) :
    List Ordinal → Nat → TupleReader → List Value →
      Except SchemaError (Nat × TupleReader × List Value)
  | [], decoded, reader, values => .ok (decoded, reader, values)
  | ordinal :: rest, decoded, reader, values =>
      match table.column ordinal with
      | none => decodeColumns table written wanted rest decoded reader values
      | some column =>
          if !presentAt column written then
            if notYetDropped column written then
              match column.default with
              | some default =>
                  decodeColumns table written wanted rest decoded reader
                    (if isWanted wanted ordinal then
                      values.set ordinal default
                    else
                      values)
              | none =>
                  if !column.nullable then
                    .error (.incompatibleSchemaEvolution table.name column.name written)
                  else
                    decodeColumns table written wanted rest decoded reader values
            else
              decodeColumns table written wanted rest decoded reader values
          else if column.isDropped || !isWanted wanted ordinal then
            match reader.skip .asc with
            | .error source => .error (.rowDecode table.name source)
            | .ok reader =>
                decodeColumns table written wanted rest (decoded + 1) reader values
          else
            match reader.read column.type .asc with
            | .error source => .error (.rowDecode table.name source)
            | .ok (value, reader) =>
                decodeColumns table written wanted rest (decoded + 1) reader
                  (values.set ordinal value)

/-- The row of a key and a body, with the wanted columns filled in. -/
def decodeRowColumns (table : TableDef) (primaryKey : List Value)
    (body : Bytes) (wanted : Option ColumnSet) : Except SchemaError Row :=
  match body with
  | [] => .error (.rowDecode table.name (.truncated 0 1))
  | format :: rest =>
      if format ≠ ROW_FORMAT_V1 then
        .error (.unsupportedRowFormat table.name format)
      else if rest.length < 4 then
        .error (.rowDecode table.name (.truncated body.length (5 - body.length)))
      else
        let written := UInt32.ofNat (fromBeBytes (rest.take 4))
        if table.schemaVersion < written then
          .error (.rowFromFutureSchema table.name written table.schemaVersion)
        else
          let blank := List.replicate table.columns.length Value.null
          if wanted.any (fun set => !table.bodyColumns.any (fun ordinal =>
                decide (ordinal ∈ set))) then
            .ok ⟨fillKey table primaryKey blank⟩
          else do
            let (decoded, reader, values) ←
              decodeColumns table written wanted table.bodyColumns 0
                (TupleReader.new (rest.drop 4)) blank
            if !reader.isEmpty then
              .error (.rowDecode table.name
                (.trailingBytes decoded reader.remainder.length))
            else
              .ok ⟨fillKey table primaryKey values⟩

/-- The row of a key and a body. -/
def decodeRow (table : TableDef) (primaryKey : List Value) (body : Bytes) :
    Except SchemaError Row :=
  decodeRowColumns table primaryKey body none

/-! ## Catalogs -/

/-- The tables a store knows. -/
structure Catalog where
  tables : List TableDef := []

namespace Catalog

def table (catalog : Catalog) (id : TableId) : Option TableDef :=
  catalog.tables.find? (fun table => table.id == id)

/-- The foreign keys that reference a table, with the tables they are on. -/
def referencing (catalog : Catalog) (parent : TableId) :
    List (TableDef × ForeignKeyDef) :=
  catalog.tables.flatMap (fun table =>
    (table.foreignKeys.filter (fun key => key.parent == parent)).map
      (fun key => (table, key)))

/-- No tenant's table may reference one that all tenants share. -/
def refuseCrossTenantEdge (catalog : Catalog) (table : TableDef)
    (key : ForeignKeyDef) : Except SchemaError Unit :=
  match catalog.table key.parent with
  | none => .ok ()
  | some parent =>
      if table.tenantColumn.isSome ∧ parent.tenantColumn.isNone then
        .error (.crossTenantForeignKey table.name key.name parent.name key.onDelete)
      else
        .ok ()

def refuseCrossTenantEdges (catalog : Catalog) : Except SchemaError Unit :=
  checkEach (fun table =>
    checkEach (catalog.refuseCrossTenantEdge table) table.foreignKeys)
    catalog.tables

/-- The table and index that already use an index id. -/
def indexOwner (catalog : Catalog) (id : IndexId) : Option (TableDef × IndexDef) :=
  catalog.tables.findSome? (fun table =>
    (table.indexes.find? (fun index => index.id == id)).map
      (fun index => (table, index)))

/-- No index id of a table may be in use. -/
def checkIndexId (catalog : Catalog) (table : TableDef) (index : IndexDef) :
    Except SchemaError Unit :=
  match catalog.indexOwner index.id with
  | some (owner, clashing) =>
      .error (.duplicateIndexId index.id index.name table.name clashing.name owner.name)
  | none => .ok ()

/-- Add a table; a refused one leaves the catalog as it was. -/
def insert (catalog : Catalog) (table : TableDef) : Except SchemaError Catalog :=
  match catalog.tables.find? (fun existing =>
      existing.id == table.id || existing.name == table.name) with
  | some existing => .error (.duplicateTable existing.name)
  | none => do
      checkEach (catalog.checkIndexId table) table.indexes
      let extended : Catalog := ⟨catalog.tables ++ [table]⟩
      extended.refuseCrossTenantEdges
      return extended

/-- A foreign key's columns have the types of the key they reference. -/
def checkForeignKeyType (table parent : TableDef) (key : ForeignKeyDef)
    (pair : Ordinal × Ordinal) : Except SchemaError Unit :=
  match table.column pair.1, parent.column pair.2 with
  | some childColumn, some parentColumn =>
      if childColumn.type ≠ parentColumn.type then
        .error (.foreignKeyTypeMismatch table.name key.name parent.name
          childColumn.name parentColumn.type childColumn.type)
      else
        .ok ()
  | _, _ => .ok ()

/-- A foreign key references the whole primary key of a known table. -/
def validateForeignKey (catalog : Catalog) (table : TableDef)
    (key : ForeignKeyDef) : Except SchemaError Unit :=
  match catalog.table key.parent with
  | none => .error (.unknownForeignKeyParent table.name key.name key.parent)
  | some parent =>
      if key.columns.length ≠ parent.primaryKey.length then
        .error (.foreignKeyWidthMismatch table.name key.name parent.name
          parent.primaryKey.length key.columns.length)
      else do
        checkEach (checkForeignKeyType table parent key)
          (key.columns.zip parent.primaryKey)
        if table.tenantColumn.isSome ∧ parent.tenantColumn.isNone then
          .error (.crossTenantForeignKey table.name key.name parent.name key.onDelete)
        else
          .ok ()

def validateForeignKeys (catalog : Catalog) : Except SchemaError Unit :=
  checkEach (fun table =>
    checkEach (catalog.validateForeignKey table) table.foreignKeys)
    catalog.tables

/-- Insert tables one after the other. -/
def insertAll : Catalog → List TableDef → Except SchemaError Catalog
  | catalog, [] => .ok catalog
  | catalog, table :: rest => do
      let catalog ← catalog.insert table
      insertAll catalog rest

/-- The catalog of a list of tables. -/
def fromTables (tables : List TableDef) : Except SchemaError Catalog := do
  let catalog ← insertAll {} tables
  catalog.validateForeignKeys
  return catalog

end Catalog

end SlateOrm
