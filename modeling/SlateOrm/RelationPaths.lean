import SlateOrm.Fingerprint
import SlateOrm.Relations

namespace SlateOrm

/-!
# Paths of relationships

A relationship is named by the foreign key that declares it, and is read in
either direction.  A path of them is resolved before anything is read.  Each
step is then one read: of the rows whose relating column holds a value that the
rows of the step before hold in theirs.
-/

/-! ## Requests -/

/-- Which side of a foreign key is read. -/
inductive RelationDirection where
  | unspecified
  | children
  | parents
  deriving DecidableEq, Repr

/-- A relationship, by the table that holds the foreign key. -/
structure Relation where
  table : String
  foreignKey : String
  direction : RelationDirection
  deriving DecidableEq, Repr

/-- A level of a path, with what the client says of the table it reads. -/
structure RelatedStep where
  relation : Option Relation
  schema : Option SchemaCheck
  deriving DecidableEq, Repr

/-- A request for the rows that are related to some keys. -/
structure RelatedRequest where
  relation : Option Relation := none
  keys : List Value
  schema : Option SchemaCheck := none
  path : List RelatedStep := []

/-- Why a request is refused. -/
inductive RelatedRefusal where
  | bothShapes
  | noShape
  | tooDeep (asked limit : Nat)
  | noRelation (step : Nat)
  | noSuchTable (name : String)
  | noSuchForeignKey (table foreignKey : String) (has : List String)
  | unknownParent (foreignKey : String)
  | compositeForeignKey (foreignKey : String) (columns : Nat)
  | compositePrimaryKey (parent : String) (columns : Nat)
  | noDirection
  | doesNotCompose (step : Nat) (rowsFrom source previous : String)
  | schema (source : SchemaRefusal)
  | kernel (source : KernelError)

/-- A failure of the kernel, as the service reports it. -/
def fromKernel {α : Type} : Except KernelError α → Except RelatedRefusal α
  | .ok value => .ok value
  | .error source => .error (.kernel source)

/-- A refused declaration, as the service reports it. -/
def fromClaim {α : Type} : Except SchemaRefusal α → Except RelatedRefusal α
  | .ok value => .ok value
  | .error source => .error (.schema source)

/-- The steps of a request, and whether it is a path. -/
def RelatedRequest.steps (request : RelatedRequest) :
    Except RelatedRefusal (List RelatedStep × Bool) :=
  match request.relation, request.path.isEmpty with
  | some _, false => .error .bothShapes
  | some relation, true => .ok ([⟨some relation, request.schema⟩], false)
  | none, false => .ok (request.path, true)
  | none, true => .error .noShape

/-! ## Answers -/

/-- Which store served a read, and what it is known to include. -/
structure ServedBy where
  replica : String
  sequence : UInt64
  deriving DecidableEq, Repr

/-- One view of a store, that all levels of a request are read from. -/
structure ServedView where
  snapshot : Snapshot
  servedBy : ServedBy

/-- The rows that a relating value matched. -/
structure RelatedGroup where
  key : Value
  rows : List Row

/-- The rows of one step, by the value that relates them. -/
structure Level where
  keyOrdinal : UInt32
  groups : List RelatedGroup

/-- All rows of a level. -/
def Level.rows (level : Level) : List Row := level.groups.flatMap RelatedGroup.rows

/-- What is answered to a request for related rows. -/
structure RelatedResponse where
  groups : List RelatedGroup
  servedBy : Option ServedBy
  warnings : List String := []
  levels : List Level

/-- Add a row to the group of a key, in the order of the keys. -/
def enterGroup (key : Value) (row : Row) : List RelatedGroup → List RelatedGroup
  | [] => [⟨key, [row]⟩]
  | group :: rest =>
      match key.cmp group.key with
      | .lt => ⟨key, [row]⟩ :: group :: rest
      | .eq => ⟨group.key, group.rows ++ [row]⟩ :: rest
      | .gt => group :: enterGroup key row rest

/-- Rows by the value of a column, and none that lacks the column. -/
def groupRows (column : Ordinal) (rows : List Row) : List RelatedGroup :=
  rows.foldl (fun groups row =>
    match row.values[column]? with
    | none => groups
    | some key => enterGroup key row groups) []

/-! ## Resolution -/

/-- A step of a path: which rows are read, and which two columns line up. -/
structure ResolvedStep where
  rowsFrom : TableDef
  matchOn : Ordinal
  source : TableDef
  sourceColumn : Ordinal

/-- The one key column that is not the tenant. -/
def relating (columns : List Ordinal) (table : TableDef) : Option Ordinal :=
  match columns.filter (fun column => some column ≠ table.tenantColumn) with
  | [only] => some only
  | _ => none

def besidesTheTenant (columns : List Ordinal) (table : TableDef) : Nat :=
  (columns.filter (fun column => some column ≠ table.tenantColumn)).length

/-- Look up a table by name. -/
def Catalog.tableByName (catalog : Catalog) (name : String) : Option TableDef :=
  catalog.tables.find? (fun table => table.name == name)

/-- What serves requests: the tables, the reads of them, and how many steps a
path may have. -/
structure Head where
  catalog : Catalog
  reads : SecuredReads
  maxRelationDepth : Option Nat

namespace Head

/-- A table by name, for a caller that may act on it. -/
def authorizedTable (head : Head) (context : SecurityContext) (name : String)
    (action : Action) : Except RelatedRefusal TableDef :=
  match head.catalog.tableByName name with
  | none => .error (.noSuchTable name)
  | some table => do
      fromKernel (head.reads.security.authorize context table action)
      return table

/-- Resolve a relationship against the foreign keys of the catalog. -/
def resolveRelation (head : Head) (relation : Relation) :
    Except RelatedRefusal ResolvedStep :=
  match head.catalog.tableByName relation.table with
  | none => .error (.noSuchTable relation.table)
  | some child =>
      match child.foreignKeys.find? (·.name == relation.foreignKey) with
      | none =>
          .error (.noSuchForeignKey child.name relation.foreignKey
            (child.foreignKeys.map ForeignKeyDef.name))
      | some key =>
          match head.catalog.table key.parent with
          | none => .error (.unknownParent key.name)
          | some parent =>
              match relating key.columns child,
                relating parent.primaryKey parent with
              | none, _ =>
                  .error (.compositeForeignKey relation.foreignKey
                    (besidesTheTenant key.columns child))
              | some _, none =>
                  .error (.compositePrimaryKey parent.name
                    (besidesTheTenant parent.primaryKey parent))
              | some childColumn, some parentColumn =>
                  match relation.direction with
                  | .children => .ok ⟨child, childColumn, parent, parentColumn⟩
                  | .parents => .ok ⟨parent, parentColumn, child, childColumn⟩
                  | .unspecified => .error .noDirection

/-- One step is one read, and a request may not ask for too many. -/
def checkDepth (head : Head) (asked : Nat) : Except RelatedRefusal Unit :=
  match head.maxRelationDepth with
  | none => .ok ()
  | some limit =>
      if limit < asked then
        .error (.tooDeep asked limit)
      else
        .ok ()

/-- A step's keys are columns of the rows that the step before returned. -/
def checkComposes (step : Nat) (previous : Option ResolvedStep)
    (this : ResolvedStep) : Except RelatedRefusal Unit :=
  match previous with
  | none => .ok ()
  | some previous =>
      if previous.rowsFrom.id ≠ this.source.id then
        .error (.doesNotCompose step this.rowsFrom.name this.source.name
          previous.rowsFrom.name)
      else
        .ok ()

/-- Resolve every step of a path, each after the one before it. -/
def resolvePath (head : Head) (context : SecurityContext) :
    Nat → Option ResolvedStep → List RelatedStep →
      Except RelatedRefusal (List ResolvedStep)
  | _, _, [] => .ok []
  | step, previous, first :: rest =>
      match first.relation with
      | none => .error (.noRelation step)
      | some relation => do
          let _ ← head.authorizedTable context relation.table .read
          let this ← head.resolveRelation relation
          checkComposes step previous this
          let others ← resolvePath head context (step + 1) (some this) rest
          return this :: others

/-- The tables that a path reads, each of them claimed and permitted. -/
def checkSteps (head : Head) (context : SecurityContext) :
    List (RelatedStep × ResolvedStep) → Except RelatedRefusal (List TableDef)
  | [] => .ok []
  | (step, plan) :: rest => do
      let table ← head.authorizedTable context plan.rowsFrom.name .read
      fromClaim (Fingerprint.check table step.schema)
      let others ← checkSteps head context rest
      return table :: others

/-! ## Levels -/

/-- A level for each step, all empty. -/
def emptyLevels (steps : List ResolvedStep) : List Level :=
  steps.map (fun step => ⟨.ofNat step.sourceColumn, []⟩)

/-- The values by which rows are the source of the next step, if there is one. -/
def nextKeys (rows : List Row) : List (ResolvedStep × TableDef) → List Value
  | [] => []
  | (next, _) :: _ =>
      sortedKeys (rows.filterMap (fun row => row.values[next.sourceColumn]?))

section

variable [Platform]

/-- The rows of a table whose relating column holds one of the keys. -/
def relatedRows (head : Head) (context : SecurityContext)
    (snapshot : Snapshot) (plan : ResolvedStep) (table : TableDef)
    (keys : List Value) : Except KernelError (List Row) := do
  let cursor ← head.reads.execute snapshot context table
    { filter := .in plan.matchOn keys }
  cursor.collect

/-- Read a level for each step, each with the keys of the one before it. -/
def readLevels (head : Head) (context : SecurityContext) (snapshot : Snapshot) :
    List (ResolvedStep × TableDef) → List Value → Except KernelError (List Level)
  | [], _ => .ok []
  | (plan, table) :: rest, keys =>
      if keys.isEmpty then do
        let levels ← readLevels head context snapshot rest []
        return ⟨.ofNat plan.sourceColumn, []⟩ :: levels
      else do
        let rows ← head.relatedRows context snapshot plan table keys
        let levels ← readLevels head context snapshot rest (nextKeys rows rest)
        return ⟨.ofNat plan.sourceColumn, groupRows plan.matchOn rows⟩ :: levels

/-- The rows that are related to keys, over one step or a path. -/
def related (head : Head) (context : SecurityContext) (view : ServedView)
    (request : RelatedRequest) : Except RelatedRefusal RelatedResponse := do
  let (steps, levelled) ← request.steps
  head.checkDepth steps.length
  let resolved ← head.resolvePath context 0 none steps
  let tables ← head.checkSteps context (steps.zip resolved)
  let keys := sortedKeys request.keys
  if keys.isEmpty then
    return {
      groups := []
      servedBy := none
      levels := if levelled then emptyLevels resolved else [] }
  else do
    let levels ← fromKernel
      (head.readLevels context view.snapshot (resolved.zip tables) keys)
    return {
      groups := if levelled then [] else (levels.head?.map Level.groups).getD []
      servedBy := some view.servedBy
      levels := if levelled then levels else [] }

end

end Head

end SlateOrm
