import SlateOrm.Keys

namespace SlateOrm

/-!
# Access control

A caller acts under the grants of its roles, and sees the rows its filter
admits: those of its tenant, those its policies allow where row security is
on, and not the retired ones.
-/

/-- What a caller may do with a table. -/
inductive Action where
  | read
  | insert
  | update
  | delete
  | explain
  | readDeleted
  deriving DecidableEq, Repr

def Action.name : Action → String
  | .readDeleted => "read_deleted"
  | .read => "read"
  | .insert => "insert"
  | .update => "update"
  | .delete => "delete"
  | .explain => "explain"

/-- Who acts. -/
structure Principal where
  id : Value
  tenant : Option Value := none
  roles : List String := []

/-- Who acts, and whether the checks are bypassed. -/
structure SecurityContext where
  principal : Principal
  bypass : Bool := false

def SecurityContext.superuser : SecurityContext where
  principal := ⟨.null, none, []⟩
  bypass := true

/-- A rule that lets some rows of a table through for some actions. -/
structure Policy where
  name : String
  table : TableId
  actions : List Action
  roles : List String := []
  predicate : SecurityContext → Expr

def Policy.appliesTo (policy : Policy) (context : SecurityContext)
    (table : TableId) (action : Action) : Bool :=
  policy.table == table && policy.actions.contains action && (policy.roles.isEmpty ||
      policy.roles.any (fun role => context.principal.roles.contains role))

/-- Actions on a table that a role may take, perhaps on some columns only. -/
structure Grant where
  role : String
  table : TableId
  actions : List Action
  columns : Option ColumnSet := none

/-- Whether rows that were soft-deleted are seen. -/
inductive Deleted where
  | hidden
  | visible
  deriving DecidableEq, Repr

/-- The grants and policies of a store. -/
structure SecurityCatalog where
  grants : List Grant := []
  policies : List Policy := []
  /-- The tables with row security. -/
  rlsEnabled : List TableId := []

namespace SecurityCatalog

variable
  (security : SecurityCatalog) (context : SecurityContext) (table : TableDef)
  (action : Action)

/-- Whether a grant gives a caller an action on a table. -/
def grantApplies (grant : Grant) : Bool :=
  grant.table == table.id && grant.actions.contains action &&
    context.principal.roles.contains grant.role

/-- Whether a caller may take an action on a table. -/
def allows : Bool :=
  context.bypass || security.grants.any (grantApplies context table action)

/-- Refuse an action that no grant gives. -/
def authorize : Except KernelError Unit :=
  if security.allows context table action then
    .ok ()
  else
    .error (.accessDenied table.name action.name)

/-- The columns of the grants together, unless one of them has no limit. -/
def grantedColumns : List Grant → Option ColumnSet
  | [] => some ∅
  | grant :: rest =>
      match grant.columns, grantedColumns rest with
      | some columns, some others => some (columns ∪ others)
      | _, _ => none

/-- The columns a caller reads; none when it reads them all. -/
def readable : Option ColumnSet :=
  if context.bypass then
    none
  else
    let grants := security.grants.filter (grantApplies context table .read)
    match grantedColumns grants with
    | none => none
    | some columns =>
        if grants.isEmpty || columns.card == table.columns.length then
          none
        else
          some columns

/-- The columns a caller does not see. -/
def concealed : List Ordinal :=
  match security.readable context table with
  | none => []
  | some readable =>
      (List.range table.columns.length).filter
        (fun ordinal => decide (ordinal ∉ readable))

/-- Refuse a caller that some column is concealed from. -/
def requireEveryColumn (action : String) : Except KernelError Unit :=
  match security.readable context table with
  | none => .ok ()
  | some _ => .error (.columnsWithheld table.name action)

/-- Rows of the caller's tenant, on a table with tenants. -/
def tenantFilter : Except KernelError Expr :=
  match table.tenantColumn with
  | none => .ok .true
  | some column =>
      match context.principal.tenant with
      | none => .error (.tenantRequired table.name)
      | some tenant => .ok (.eq column tenant)

/-- Rows that were not soft-deleted, unless those are seen too. -/
def notDeleted (deleted : Deleted) : Expr :=
  match deleted, table.softDelete with
  | .hidden, some column => .isNull column false
  | _, _ => .true

/-- Rows that one of the caller's policies lets through. -/
def policyFilter : Expr :=
  let applicable := security.policies.filter
      (fun policy => policy.appliesTo context table.id action)
  if applicable.isEmpty then
    .false
  else
    .or (applicable.map (fun policy => policy.predicate context))

/-- The rows an action of a caller is about. -/
def rowFilterWith (deleted : Deleted) : Except KernelError Expr :=
  -- Retirement hides a row from everyone, so it comes before the bypass.
  if context.bypass then
    .ok (notDeleted table deleted)
  else do
    let filter ← tenantFilter context table
    let filter := if security.rlsEnabled.contains table.id then
        filter.andThen (security.policyFilter context table action)
      else
        filter
    return filter.andThen (notDeleted table deleted)

def rowFilter : Except KernelError Expr :=
  security.rowFilterWith context table action .hidden

section

variable [Platform]

/-- Whether a row is one that an action of a caller is about. -/
def permitsRowWith (security : SecurityCatalog) (context : SecurityContext)
    (table : TableDef) (action : Action) (row : Row) (deleted : Deleted) :
    Except KernelError Bool := do
  let filter ← security.rowFilterWith context table action deleted
  return filter.admits row

end

end SecurityCatalog

/-- Blank the columns a caller does not see. -/
def conceal (row : Row) (concealed : List Ordinal) : Row :=
  ⟨concealed.foldl (fun values ordinal => values.set ordinal .null) row.values⟩

end SlateOrm
