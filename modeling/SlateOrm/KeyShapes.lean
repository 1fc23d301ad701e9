import SlateOrm.CatalogInsertion
import SlateOrm.EagerLoading
import SlateOrm.RelationPaths
import SlateOrm.Semijoins

namespace SlateOrm

open List Option

/-!
# What lines up in a relationship

A path compares one column of each table, and leaves the tenants to the filter
of the caller.  Two rows that agree on these columns are linked by the whole
foreign key when the key puts the tenants opposite each other and the caller
has one.  A key that puts the child's tenant opposite the parent's other column
links them only through the tenant's own value.
-/

/-! ## Links -/

/-- A foreign key that a relationship names, and the tables on its sides. -/
structure NamedKey where
  child : TableDef
  key : ForeignKeyDef
  parent : TableDef

/-- The foreign key that a relationship names. -/
def Catalog.namedKey (catalog : Catalog) (relation : Relation) : Option NamedKey := do
  let child ← catalog.tableByName relation.table
  let key ← child.foreignKeys.find? (·.name == relation.foreignKey)
  let parent ← catalog.table key.parent
  return ⟨child, key, parent⟩

/-- A child is linked to a parent by all columns of the key. -/
def NamedKey.links (named : NamedKey) (child parent : Row) : Bool :=
  (named.key.columns.zip named.parent.primaryKey).all (fun pair =>
    relatesOver (parent.valueOrNull pair.2) pair.1 child.values)

/-- A row is linked to one of the step before by the whole foreign key. -/
def Catalog.links (catalog : Catalog) (relation : Relation) (before row : Row) : Bool :=
  match catalog.namedKey relation, relation.direction with
  | some named, .children => named.links row before
  | some named, .parents => named.links before row
  | _, _ => false

namespace ResolvedStep

/-- The two columns that a step compares hold one value. -/
def relates (plan : ResolvedStep) (before row : Row) : Bool :=
  relatesOver (before.valueOrNull plan.sourceColumn) plan.matchOn row.values

/-- The tenants of two rows are one. -/
def sharesTenant (plan : ResolvedStep) (before row : Row) : Bool :=
  match plan.source.tenantColumn, plan.rowsFrom.tenantColumn with
  | some sourceTenant, some tenant =>
      relatesOver (before.valueOrNull sourceTenant) tenant row.values
  | _, _ => false

end ResolvedStep

theorem relatesOver_iff
    {key : Value} {column : Ordinal} {row : Row} :
    relatesOver key column row.values = true ↔ (row.valueOrNull column).isNull = false ∧
        (row.valueOrNull column).canonical = key.canonical := by
  rw [relatesOver, Row.valueOrNull, Row.get]
  cases row.values[column]? with
  | none => simp [Value.isNull]
  | some value => simp [Value.beq_iff_canonical]

theorem relatesOver_null
    (column : Ordinal) (row : Row) :
    relatesOver .null column row.values = false := by
  rw [Bool.eq_false_iff, Ne, relatesOver_iff]
  rintro ⟨present, same⟩
  rw [← Value.isNull_canonical, same, Value.isNull_canonical] at present
  cases present

theorem relatesOver_comm
    (first second : Row) (column column' : Ordinal) :
    relatesOver (first.valueOrNull column) column' second.values =
      relatesOver (second.valueOrNull column') column first.values := by
  have turns : ∀ {one another : Value},
      one.isNull = false ∧ one.canonical = another.canonical →
        another.isNull = false ∧ another.canonical = one.canonical := by
    rintro one another ⟨present, same⟩
    refine ⟨?_, same.symm⟩
    rw [← Value.isNull_canonical, ← same, Value.isNull_canonical, present]
  rw [Bool.eq_iff_iff, relatesOver_iff, relatesOver_iff]
  exact ⟨turns, turns⟩

theorem relatesOver_congr
    {key key' : Value}
    (sameKey : key.canonical = key'.canonical)
    (column : Ordinal) {row row' : Row} (same : row.Same row') :
    relatesOver key column row.values = relatesOver key' column row'.values := by
  have sameValue := same.valueOrNull column
  rw [Bool.eq_iff_iff, relatesOver_iff, relatesOver_iff, sameValue, sameKey,
    ← Value.isNull_canonical, sameValue, Value.isNull_canonical]

theorem ResolvedStep.looksAtBoth_relates
    (plan : ResolvedStep) :
    LooksAtBoth Row.canonical plan.relates where
  source _ _ _ same := relatesOver_congr (Row.Same.valueOrNull same _) _ rfl
  item _ _ _ same := relatesOver_congr rfl _ same

theorem NamedKey.links_congr
    (named : NamedKey) {child child' parent parent' : Row}
    (sameChild : child.Same child') (sameParent : parent.Same parent') :
    named.links child parent = named.links child' parent' :=
  congrArg (named.key.columns.zip named.parent.primaryKey).all
    (funext fun _ => relatesOver_congr (sameParent.valueOrNull _) _ sameChild)

theorem Catalog.looksAtBoth_links
    (catalog : Catalog) (relation : Relation) :
    LooksAtBoth Row.canonical (catalog.links relation) := by
  have congr : ∀ {before before' row row' : Row}, before.Same before' →
      row.Same row' → catalog.links relation before row =
          catalog.links relation before' row' := by
    intro before before' row row' sameBefore same
    rw [Catalog.links, Catalog.links]
    split
    · exact NamedKey.links_congr _ same sameBefore
    · exact NamedKey.links_congr _ sameBefore same
    · rfl
  exact ⟨fun _ _ _ same => congr same rfl, fun _ _ _ same => congr rfl same⟩

/-! ## Shapes of keys -/

namespace NamedKey

/-- How the columns of a key that a path may go by stand to the tenants. -/
inductive Shape (named : NamedKey) (childColumn parentColumn : Ordinal) :
    Prop where
  /-- There are no tenants, and one column. -/
  | shared (untenanted : named.child.tenantColumn = none)
      (columns : named.key.columns = [childColumn])
      (primaryKey : named.parent.primaryKey = [parentColumn])
  /-- The tenants are opposite each other. -/
  | aligned (tenant parentTenant : Ordinal)
      (isTenant : named.child.tenantColumn = some tenant)
      (isParentTenant : named.parent.tenantColumn = some parentTenant)
      (columns : named.key.columns = [tenant, childColumn])
      (primaryKey : named.parent.primaryKey = [parentTenant, parentColumn])
  /-- The child's tenant is opposite the parent's other column. -/
  | crossed (tenant parentTenant : Ordinal)
      (isTenant : named.child.tenantColumn = some tenant)
      (isParentTenant : named.parent.tenantColumn = some parentTenant)
      (apart : childColumn ≠ tenant)
      (columns : named.key.columns = [childColumn, tenant])
      (primaryKey : named.parent.primaryKey = [parentTenant, parentColumn])

end NamedKey

theorem relating_eq_some_iff
    {columns : List Ordinal} {table : TableDef} {only : Ordinal} :
    relating columns table = some only ↔
      columns.filter (fun column => some column ≠ table.tenantColumn) = [only] := by
  rw [relating]
  split
  · next left => simp only [left, some.injEq, cons.injEq, and_true]
  · next left => exact iff_of_false nofun fun isOnly => left _ isOnly

theorem primaryKey_of_relating
    {table : TableDef}
    (wellFormed : table.WellFormed)
    {tenant : Ordinal}
    (isTenant : table.tenantColumn = some tenant)
    {only : Ordinal}
    (isOnly : relating table.primaryKey table = some only) :
    table.primaryKey = [tenant, only] := by
  rw [relating_eq_some_iff, isTenant] at isOnly
  have leads := wellFormed.tenant tenant isTenant
  obtain ⟨others, isKey⟩ := head?_eq_some_iff.mp leads
  have distinct := wellFormed.keyDistinct
  rw [isKey, nodup_cons] at distinct
  have kept : others.filter (fun column => some column ≠ some tenant) =
      others := by
    rw [filter_eq_self]
    intro column member
    simpa using fun same : column = tenant => distinct.1 (same ▸ member)
  rw [isKey, filter_cons_of_neg (by simp), kept] at isOnly
  rw [isKey, isOnly]

variable {catalog : Catalog}

/-- A key of a validated catalog is as wide as the parent's, and a tenant's
table refers to one of tenants. -/
theorem Catalog.width_of_validated
    (validated : catalog.validateForeignKeys = .ok ())
    {child : TableDef}
    (inCatalog : child ∈ catalog.tables)
    {key : ForeignKeyDef}
    (declared : key ∈ child.foreignKeys)
    {parent : TableDef}
    (isParent : catalog.table key.parent = some parent) :
    key.columns.length = parent.primaryKey.length ∧
      ¬ (child.tenantColumn.isSome ∧ parent.tenantColumn.isNone) := by
  have checked := checkEach_eq_ok (checkEach_eq_ok validated child inCatalog)
    key declared
  rw [validateForeignKey, isParent] at checked
  dsimp only at checked
  split at checked
  · cases checked
  next width =>
    obtain ⟨_, _, tenants⟩ := bind_eq_ok.mp checked
    split at tenants
    · cases tenants
    next stays => exact ⟨not_not.mp width, stays⟩

namespace NamedKey

/-- The sides of a named key are tables of the catalog, and it is one of the
child's. -/
structure Declared (named : NamedKey) (catalog : Catalog) : Prop where
  child : named.child ∈ catalog.tables
  key : named.key ∈ named.child.foreignKeys
  isParent : catalog.table named.key.parent = some named.parent

theorem Declared.parent
    {named : NamedKey} (declared : named.Declared catalog) :
    named.parent ∈ catalog.tables :=
  mem_of_find?_eq_some declared.isParent

/-- A key that leaves one column on either side has one of the shapes. -/
theorem shape_of_relating
    {named : NamedKey}
    (wellFormed : catalog.WellFormed)
    (validated : catalog.validateForeignKeys = .ok ())
    (declared : named.Declared catalog) {childColumn parentColumn : Ordinal}
    (isChild : relating named.key.columns named.child = some childColumn)
    (isParent : relating named.parent.primaryKey named.parent = some parentColumn) :
    named.Shape childColumn parentColumn := by
  have ⟨width, tenants⟩ := Catalog.width_of_validated validated declared.child
    declared.key declared.isParent
  rw [relating_eq_some_iff] at isChild
  cases isParentTenant : named.parent.tenantColumn with
  | none =>
      have untenanted : named.child.tenantColumn = none := by
        simpa [isParentTenant] using tenants
      rw [relating_eq_some_iff, isParentTenant] at isParent
      rw [untenanted] at isChild
      exact .shared untenanted (by simpa using isChild) (by simpa using isParent)
  | some parentTenant =>
      have primaryKey := primaryKey_of_relating
        (wellFormed.tables _ declared.parent) isParentTenant isParent
      rw [primaryKey, length_cons, length_singleton, length_eq_two] at width
      obtain ⟨first, second, columns⟩ := width
      rw [columns] at isChild
      cases isTenant : named.child.tenantColumn with
      | none => simp [isTenant] at isChild
      | some tenant =>
          rw [isTenant] at isChild
          -- One of the two columns is the tenant, and the other is left.
          by_cases leads : first = tenant
          · have isSecond : second = childColumn := by
              by_cases also : second = tenant <;> simp_all
            exact .aligned tenant parentTenant isTenant isParentTenant
              (by rw [columns, leads, isSecond]) primaryKey
          · have isFirst : first = childColumn ∧ second = tenant := by
              by_cases also : second = tenant <;> simp_all
            exact .crossed tenant parentTenant isTenant isParentTenant
              (isFirst.1 ▸ leads) (by rw [columns, isFirst.1, isFirst.2])
              primaryKey

end NamedKey

/-! ## Resolved steps -/

/-- What a relationship is resolved to, in either direction. -/
inductive Catalog.Resolves (catalog : Catalog) (relation : Relation) :
    ResolvedStep → Prop where
  | children {named : NamedKey} {childColumn parentColumn : Ordinal}
      (isNamed : catalog.namedKey relation = some named)
      (declared : named.Declared catalog)
      (shape : named.Shape childColumn parentColumn)
      (isDirection : relation.direction = .children) :
      catalog.Resolves relation ⟨named.child, childColumn, named.parent, parentColumn⟩
  | parents {named : NamedKey} {childColumn parentColumn : Ordinal}
      (isNamed : catalog.namedKey relation = some named)
      (declared : named.Declared catalog)
      (shape : named.Shape childColumn parentColumn)
      (isDirection : relation.direction = .parents) :
      catalog.Resolves relation ⟨named.parent, parentColumn, named.child, childColumn⟩

variable {relation : Relation} {plan : ResolvedStep}

theorem Catalog.Resolves.inCatalog
    (resolves : catalog.Resolves relation plan) :
    plan.rowsFrom ∈ catalog.tables ∧ plan.source ∈ catalog.tables := by
  cases resolves with
  | children _ declared _ _ => exact ⟨declared.child, declared.parent⟩
  | parents _ declared _ _ => exact ⟨declared.parent, declared.child⟩

/-- What is resolved compares the columns that are left of the two keys. -/
theorem Head.resolves_of_resolveRelation
    {head : Head}
    (wellFormed : head.catalog.WellFormed)
    (validated : head.catalog.validateForeignKeys = .ok ())
    (resolved : head.resolveRelation relation = .ok plan) :
    head.catalog.Resolves relation plan := by
  rw [resolveRelation] at resolved
  split at resolved
  · cases resolved
  next child isChild =>
    split at resolved
    · cases resolved
    next key isKey =>
      split at resolved
      · cases resolved
      next parent isParent =>
        have isNamed : head.catalog.namedKey relation = some ⟨child, key, parent⟩ := by
          rw [Catalog.namedKey, isChild, bind_eq_bind, bind_some,
            isKey, bind_eq_bind, bind_some, isParent]
          rfl
        have declared : NamedKey.Declared ⟨child, key, parent⟩
            head.catalog :=
          ⟨mem_of_find?_eq_some isChild, mem_of_find?_eq_some isKey, isParent⟩
        split at resolved
        · cases resolved
        · cases resolved
        next childColumn parentColumn isLeft isLeft' =>
          have shape := NamedKey.shape_of_relating wellFormed validated
            declared isLeft isLeft'
          split at resolved
          · next isDirection =>
              cases resolved
              exact .children isNamed declared shape isDirection
          · next isDirection =>
              cases resolved
              exact .parents isNamed declared shape isDirection
          · cases resolved

/-- What a link is, by what a step compares. -/
inductive Catalog.LinksBy (catalog : Catalog) (relation : Relation)
    (plan : ResolvedStep) : Prop where
  /-- It is what is compared. -/
  | compared {named : NamedKey} (isNamed : catalog.namedKey relation = some named)
      (untenanted : named.child.tenantColumn = none)
      (links : ∀ before row,
        catalog.links relation before row = plan.relates before row)
  /-- It is what is compared, of one tenant. -/
  | ofTenant {named : NamedKey} {tenant : Ordinal}
      (isNamed : catalog.namedKey relation = some named)
      (isTenant : named.child.tenantColumn = some tenant)
      (leads : named.key.columns.head? = some tenant)
      (links : ∀ before row, catalog.links relation before row =
        (plan.relates before row && plan.sharesTenant before row))
      {sourceTenant rowTenant : Ordinal}
      (isSource : plan.source.tenantColumn = some sourceTenant)
      (isRow : plan.rowsFrom.tenantColumn = some rowTenant)
  /-- Within one tenant, it is what is compared when that is the tenant. -/
  | byTenant {named : NamedKey} {tenant : Ordinal}
      (isNamed : catalog.namedKey relation = some named)
      (isTenant : named.child.tenantColumn = some tenant)
      (follows : named.key.columns.head? ≠ some tenant)
      {sourceTenant rowTenant : Ordinal}
      (isSource : plan.source.tenantColumn = some sourceTenant)
      (isRow : plan.rowsFrom.tenantColumn = some rowTenant)
      (links : ∀ mine before row, relatesOver mine sourceTenant before.values = true →
        relatesOver mine rowTenant row.values = true →
          catalog.links relation before row = (plan.relates before row &&
              relatesOver mine plan.matchOn row.values))

theorem NamedKey.crossed_links
    {mine : Value} {child parent : Row}
    {childColumn tenant parentTenant parentColumn : Ordinal}
    (ofChild : relatesOver mine tenant child.values = true)
    (ofParent : relatesOver mine parentTenant parent.values = true) :
    (relatesOver (parent.valueOrNull parentTenant) childColumn child.values = true ∧
      relatesOver (parent.valueOrNull parentColumn) tenant child.values = true) ↔
    relatesOver (parent.valueOrNull parentColumn) childColumn child.values = true ∧
      relatesOver mine childColumn child.values = true := by
  simp only [relatesOver_iff] at ofChild ofParent ⊢
  rw [ofChild.2, ofParent.2]
  constructor
  · rintro ⟨⟨present, same⟩, -, same'⟩
    exact ⟨⟨present, same.trans same'⟩, present, same⟩
  · rintro ⟨⟨present, same⟩, -, same'⟩
    exact ⟨⟨present, same'⟩, ofChild.1, same'.symm.trans same⟩

theorem relatesOver_of_relates
    {first second : Row} {column column' : Ordinal}
    (relates : relatesOver (first.valueOrNull column) column' second.values = true)
    (mine : Value) :
    relatesOver mine column' second.values = relatesOver mine column first.values := by
  have turned := (relatesOver_comm first second column column').symm.trans relates
  rw [relatesOver_iff] at relates turned
  rw [Bool.eq_iff_iff, relatesOver_iff, relatesOver_iff, relates.2]
  exact and_congr_left fun _ => iff_of_true relates.1 turned.1

/-- A resolved step compares what links its rows, but for the tenants. -/
theorem Catalog.Resolves.linksBy
    (resolves : catalog.Resolves relation plan) :
    catalog.LinksBy relation plan := by
  cases resolves with
  | @children named childColumn parentColumn isNamed declared shape isDirection =>
      have isLink : ∀ before row, catalog.links relation before row =
          named.links row before := by
        intro before row
        rw [Catalog.links, isNamed, isDirection]
      cases shape with
      | shared untenanted columns primaryKey =>
          refine .compared isNamed untenanted fun before row => ?_
          simp [isLink, NamedKey.links, columns, primaryKey, ResolvedStep.relates]
      | aligned tenant parentTenant isTenant isParentTenant columns primaryKey =>
          refine .ofTenant isNamed isTenant (by rw [columns]; rfl)
            (fun before row => ?_) isParentTenant isTenant
          simp [isLink, NamedKey.links, columns, primaryKey, ResolvedStep.relates,
            ResolvedStep.sharesTenant, isTenant, isParentTenant, Bool.and_comm]
      | crossed tenant parentTenant isTenant isParentTenant apart columns primaryKey =>
          refine .byTenant isNamed isTenant (by rw [columns]; simpa using apart)
            isParentTenant isTenant fun mine before row ofParent ofChild => ?_
          have crossed := @NamedKey.crossed_links _ row before childColumn _ _
            parentColumn ofChild ofParent
          rw [Bool.eq_iff_iff]
          simpa [isLink, NamedKey.links, columns, primaryKey,
            ResolvedStep.relates] using crossed
  | @parents named childColumn parentColumn isNamed declared shape isDirection =>
      have isLink : ∀ before row, catalog.links relation before row =
          named.links before row := by
        intro before row
        rw [Catalog.links, isNamed, isDirection]
      -- The child holds the key, and is the row of the step before.
      have isCompared : ∀ before row, ResolvedStep.relates
          ⟨named.parent, parentColumn, named.child, childColumn⟩ before row =
            relatesOver (row.valueOrNull parentColumn) childColumn
              before.values :=
        fun before row => relatesOver_comm before row _ _
      cases shape with
      | shared untenanted columns primaryKey =>
          refine .compared isNamed untenanted fun before row => ?_
          simp [isLink, NamedKey.links, columns, primaryKey, isCompared]
      | aligned tenant parentTenant isTenant isParentTenant columns primaryKey =>
          refine .ofTenant isNamed isTenant (by rw [columns]; rfl)
            (fun before row => ?_) isTenant isParentTenant
          simp [isLink, NamedKey.links, columns, primaryKey, isCompared,
            ResolvedStep.sharesTenant, isTenant, isParentTenant,
            relatesOver_comm before row tenant, Bool.and_comm]
      | crossed tenant parentTenant isTenant isParentTenant apart columns primaryKey =>
          refine .byTenant isNamed isTenant (by rw [columns]; simpa using apart)
            isTenant isParentTenant fun mine before row ofChild ofParent => ?_
          have crossed := @NamedKey.crossed_links _ before row childColumn _ _
            parentColumn ofChild ofParent
          have sameTenant := @relatesOver_of_relates row before parentColumn childColumn
          rw [Bool.eq_iff_iff]
          simp only [isLink, NamedKey.links, columns, primaryKey, isCompared,
            zip_cons_cons, zip_nil_right, all_cons,
            all_nil, Bool.and_true, Bool.and_eq_true]
          rw [crossed]
          exact and_congr_right fun relates => by rw [sameTenant relates mine]

end SlateOrm
