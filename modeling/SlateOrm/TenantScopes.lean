import SlateOrm.KeyShapes

namespace SlateOrm

/-!
# What the filter of a caller settles

A path leaves the tenants of its rows to the filter of the caller.  That is
enough for a caller with a tenant, where a key puts the tenants opposite each
other.  Elsewhere it depends on the rows: on those that share a relating value
with a row of the step before.
-/

/-! ## Conditions on rows -/

namespace ResolvedStep

/-- The rows that hold the value of a row before are of the tenant of one. -/
def KeepsTenants (plan : ResolvedStep) (before seen : List Row) : Prop :=
  ∀ row ∈ seen, before.any (fun other => plan.relates other row) = true →
    before.any (fun other =>
      plan.relates other row && plan.sharesTenant other row) = true

/-- The rows that hold the value of a row before hold the caller's tenant. -/
def HoldsTenant (plan : ResolvedStep) (mine : Option Value)
    (before seen : List Row) : Prop :=
  ∀ row ∈ seen, before.any (fun other => plan.relates other row) = true →
    ∀ tenant, mine = some tenant → relatesOver tenant plan.matchOn row.values = true

end ResolvedStep

section

variable [Platform]

namespace Head

/-- The rows of a table that a caller sees. -/
def visibleRows (head : Head) (context : SecurityContext) (table : TableDef)
    (rows : List Row) : List Row :=
  match head.reads.security.rowFilterWith context table .read .hidden with
  | .ok filter => rows.filter filter.admits
  | .error _ => []

/-- A step of a path, over the rows that a caller sees. -/
def hop (head : Head) (context : SecurityContext)
    (held : TableDef → List Row) (relation : Relation)
    (plan : ResolvedStep) : Hop Row where
  items := head.visibleRows context plan.rowsFrom (held plan.rowsFrom)
  compared := plan.relates
  linked := head.catalog.links relation

omit [Platform] in
/--
What a step leaves to the filter of the caller is settled by it, or by the
rows: whether the key puts the tenants opposite each other, and whether the
caller is above them.
-/
def Settles (head : Head) (context : SecurityContext) (relation : Relation)
    (plan : ResolvedStep) (before seen : List Row) : Prop :=
  ∀ named tenant, head.catalog.namedKey relation = some named →
    named.child.tenantColumn = some tenant →
      match decide (named.key.columns.head? = some tenant), context.bypass with
      | true, false => True
      | true, true => plan.KeepsTenants before seen
      | false, false => plan.HoldsTenant context.principal.tenant before seen
      | false, true =>
          ∀ row ∈ seen, before.any (fun other => plan.relates other row) =
              before.any (fun other => head.catalog.links relation other row)

end Head

/-! ## Tenants of visible rows -/

omit [Platform] in
theorem ResolvedStep.sharesTenant_of_relatesOver
    {plan : ResolvedStep} {sourceTenant rowTenant : Ordinal}
    (isSource : plan.source.tenantColumn = some sourceTenant)
    (isRow : plan.rowsFrom.tenantColumn = some rowTenant)
    {mine : Value} {before row : Row}
    (ofBefore : relatesOver mine sourceTenant before.values = true)
    (ofRow : relatesOver mine rowTenant row.values = true) :
    plan.sharesTenant before row = true := by
  rw [relatesOver_iff] at ofBefore ofRow
  rw [sharesTenant, isSource, isRow]
  exact relatesOver_iff.mpr ⟨ofRow.1, ofRow.2.trans ofBefore.2.symm⟩

theorem admits_eq
    (column : Ordinal) (value : Value) (row : Row) :
    (Expr.eq column value).admits row = relatesOver value column row.values := by
  rw [Bool.eq_iff_iff, Expr.admits, Expr.evaluate, Truth.admits_iff, Expr.eq,
    Expr.evaluateOver, evaluateCompare_eq_true_iff]
  simp only [relatesOver, Option.any_eq_true, Bool.and_eq_true, Bool.not_eq_true',
    Value.beq_iff_canonical, CmpOp.apply, beq_iff_eq, Value.cmp_eq_iff_canonical]
  refine exists_congr fun actual => and_congr_right fun _ =>
    and_congr_right fun present => ⟨And.right, fun same => ⟨?_, same⟩⟩
  rw [← Value.isNull_canonical, ← same, Value.isNull_canonical, present]

namespace Head

variable
  {head : Head}
  {context : SecurityContext}
  {table : TableDef}
  {rows : List Row}

theorem tenant_of_visible
    (pinned : context.bypass = false)
    {column : Ordinal}
    (isTenant : table.tenantColumn = some column)
    {row : Row}
    (isVisible : row ∈ head.visibleRows context table rows) :
    ∃ mine, context.principal.tenant = some mine ∧
      relatesOver mine column row.values = true := by
  rw [visibleRows] at isVisible
  split at isVisible
  next filter isFilter =>
    rw [SecurityCatalog.rowFilterWith, if_neg (by simp [pinned])] at isFilter
    obtain ⟨scope, isScope, made⟩ := bind_eq_ok.mp isFilter
    cases made
    have admitted := (List.mem_filter.mp isVisible).2
    rw [Expr.admits_andThen, Bool.and_eq_true] at admitted
    rw [SecurityCatalog.tenantFilter, isTenant] at isScope
    cases isMine : context.principal.tenant with
    | none =>
        rw [isMine] at isScope
        cases isScope
    | some mine =>
        rw [isMine] at isScope
        cases isScope
        refine ⟨mine, rfl, ?_⟩
        rw [← admits_eq]
        have inScope := admitted.1
        split at inScope
        · rw [Expr.admits_andThen, Bool.and_eq_true] at inScope
          exact inScope.1
        · exact inScope
  · cases isVisible

variable
  {held : TableDef → List Row}
  {relation : Relation}
  {plan : ResolvedStep}
  {before : List Row}

/-- What a step leaves to the filter is settled when what it compares is what
links its rows. -/
theorem settles_iff_agrees
    (linksBy : head.catalog.LinksBy relation plan)
    (isSeen : ∀ other ∈ before,
      other ∈ head.visibleRows context plan.source (held plan.source)) :
    head.Settles context relation plan before
        (head.visibleRows context plan.rowsFrom (held plan.rowsFrom)) ↔
      (head.hop context held relation plan).Agrees before := by
  have settles_iff : ∀ {named : NamedKey} {tenant : Ordinal},
      head.catalog.namedKey relation = some named →
      named.child.tenantColumn = some tenant →
        ∀ seen, head.Settles context relation plan before seen ↔
          match decide (named.key.columns.head? = some tenant),
              context.bypass with
          | true, false => True
          | true, true => plan.KeepsTenants before seen
          | false, false => plan.HoldsTenant context.principal.tenant before seen
          | false, true =>
              ∀ row ∈ seen, before.any (fun other => plan.relates other row) =
                  before.any (fun other =>
                    head.catalog.links relation other row) := by
    intro named tenant isNamed isTenant seen
    constructor
    · exact fun settles => settles named tenant isNamed isTenant
    · intro holds named' tenant' isNamed' isTenant'
      cases isNamed.symm.trans isNamed'
      cases isTenant.symm.trans isTenant'
      exact holds
  cases linksBy with
  | compared isNamed untenanted links =>
      refine iff_of_true ?_ fun row _ => ?_
      · intro named' tenant isNamed' isTenant
        cases isNamed.symm.trans isNamed'
        cases untenanted.symm.trans isTenant
      · exact List.any_congr rfl fun other => (links other row).symm
  | ofTenant isNamed isTenant leads links isSource isRow =>
      rw [settles_iff isNamed isTenant]
      cases isBypass : context.bypass with
      | false =>
          simp only [leads, decide_true]
          refine iff_of_true trivial fun row isVisible => ?_
          obtain ⟨mine, isMine, ofRow⟩ := tenant_of_visible isBypass isRow isVisible
          refine any_eq_of_forall_mem fun other isBefore => ?_
          obtain ⟨mine', isMine', ofOther⟩ :=
            tenant_of_visible isBypass isSource (isSeen other isBefore)
          cases isMine.symm.trans isMine'
          simp only [hop, links, ResolvedStep.sharesTenant_of_relatesOver
            isSource isRow ofOther ofRow, Bool.and_true]
      | true =>
          simp only [leads, decide_true]
          refine forall₂_congr fun row _ => ?_
          simp only [hop, links]
          exact ⟨fun keeps => Bool.eq_iff_iff.mpr ⟨keeps, any_of_any_and⟩,
            fun same related => same ▸ related⟩
  | byTenant isNamed isTenant follows isSource isRow links =>
      rw [settles_iff isNamed isTenant]
      cases isBypass : context.bypass with
      | false =>
          simp only [follows, decide_false]
          refine forall₂_congr fun row isVisible => ?_
          obtain ⟨mine, isMine, ofRow⟩ := tenant_of_visible isBypass isRow isVisible
          have linked : before.any (fun other =>
                head.catalog.links relation other row) =
              (before.any (fun other => plan.relates other row) &&
                relatesOver mine plan.matchOn row.values) := by
            rw [← any_and_right]
            refine any_eq_of_forall_mem fun other isBefore => ?_
            obtain ⟨mine', isMine', ofOther⟩ :=
              tenant_of_visible isBypass isSource (isSeen other isBefore)
            cases isMine.symm.trans isMine'
            exact links mine other row ofOther ofRow
          simp only [hop, linked, isMine, Option.some.injEq, forall_eq']
          cases before.any (fun other => plan.relates other row) <;> simp
      | true =>
          simp only [follows, decide_false]
          exact Iff.rfl

end Head

end

end SlateOrm
