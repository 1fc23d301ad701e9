import SlateOrm.PredicateMeaning

namespace SlateOrm

/-!
# Predicates of policies

A policy is written with placeholders for its caller and lowered to a predicate
of the kernel for each request.  A caller without a tenant has a null in its
place, which leaves unknown what depends on it: such a caller is shown no row
that it would not be shown under any tenant.
-/

/-- One side of a comparison. -/
inductive Operand where
  | literal (value : Value)
  | column (ordinal : Ordinal)
  | principal
  | tenant
  deriving Repr

/-- A parsed predicate: one of the kernel's with placeholders. -/
inductive Pred where
  | true
  | false
  | and (parts : List Pred)
  | or (parts : List Pred)
  | not (inner : Pred)
  | compare (column : Ordinal) (op : CmpOp) (rhs : Operand)
  | isNull (column : Ordinal) (negated : Bool)
  | like (column : Ordinal) (pattern : String) (negated insensitive : Bool)
  | «matches» (column : Ordinal) (pattern : String) (negated insensitive : Bool)
  | «in» (column : Ordinal) (values : List Operand) (negated : Bool)

/-- The value of a placeholder for a caller; a column never comes here. -/
def Operand.resolve (context : SecurityContext) : Operand → Value
  | .literal value => value
  | .principal => context.principal.id
  | .tenant => context.principal.tenant.getD .null
  | .column _ => .null

mutual

/-- The predicate of the kernel that is meant for a caller. -/
def Pred.lower (context : SecurityContext) : Pred → Expr
  | .true => .true
  | .false => .false
  | .and parts => .and (Pred.lowerList context parts)
  | .or parts => .or (Pred.lowerList context parts)
  | .not inner => .not (inner.lower context)
  | .compare column op (.column right) => .compareColumns column op right
  | .compare column op rhs => .compare column op (Operand.resolve context rhs)
  | .isNull column negated => .isNull column negated
  | .like column pattern negated insensitive => .like column pattern negated insensitive
  | .matches column pattern negated insensitive =>
      .matches column pattern negated insensitive
  | .in column values negated =>
      let inner := .in column (values.map (Operand.resolve context))
      if negated then .not inner else inner

def Pred.lowerList (context : SecurityContext) : List Pred → List Expr
  | [] => []
  | part :: rest => part.lower context :: Pred.lowerList context rest

end

/-- The same caller, given a tenant. -/
def SecurityContext.withTenant (context : SecurityContext) (tenant : Value) :
    SecurityContext :=
  { context with principal := { context.principal with tenant := some tenant } }

/-! ## An absent tenant -/

section

variable {context : SecurityContext} (tenant : Value)

theorem held_resolve
    (noTenant : context.principal.tenant = none)
    (operand : Operand) :
    (operand.resolve context).held = none ∨
      operand.resolve context = operand.resolve (context.withTenant tenant) := by
  cases operand with
  | tenant =>
      rw [Operand.resolve, noTenant]
      exact .inl rfl
  | literal value
  | principal
  | column ordinal => exact .inr rfl

theorem settles_meaning
    (noTenant : context.principal.tenant = none)
    (op : CmpOp) (actual : Option Value) (operand : Operand) :
    ThreeValued.Settles (op.meaning actual (operand.resolve context).held)
      (op.meaning actual (operand.resolve (context.withTenant tenant)).held) := by
  rcases held_resolve tenant noTenant operand with absent | same
  · rw [absent]
    cases actual <;> exact .none _
  · rw [same]
    exact .refl _

variable [Platform] (row : Columns)

mutual

/-- What is known of a row without a tenant is as known with any. -/
theorem Pred.settles_lower
    (noTenant : context.principal.tenant = none) :
    ∀ predicate : Pred,
      ThreeValued.Settles ((predicate.lower context).evaluateOver row).known
        ((predicate.lower (context.withTenant tenant)).evaluateOver row).known
  | .true
  | .false
  | .compare _ _ (.column _)
  | .isNull _ _
  | .like _ _ _ _
  | .matches _ _ _ _ => .refl _
  | .and parts => by
      rw [Pred.lower, Pred.lower, Expr.known_and, Expr.known_and]
      exact .all (Pred.settles_lowerList noTenant parts)
  | .or parts => by
      rw [Pred.lower, Pred.lower, Expr.known_or, Expr.known_or]
      exact .any (Pred.settles_lowerList noTenant parts)
  | .not inner => by
      simp only [Pred.lower, Expr.evaluateOver, Truth.known_negate]
      exact (Pred.settles_lower noTenant inner).neg
  | .compare column op (.literal value)
  | .compare column op .principal
  | .compare column op .tenant => by
      simp only [Pred.lower, Expr.evaluateOver, known_evaluateCompare]
      exact settles_meaning tenant noTenant op _ _
  | .in column values negated => by
      have settles : ThreeValued.Settles
          (evaluateIn row column (values.map (Operand.resolve context))).known
          (evaluateIn row column
            (values.map (Operand.resolve (context.withTenant tenant)))).known := by
        rw [known_evaluateIn, known_evaluateIn]
        cases row.held column with
        | none => exact .refl _
        | some actual =>
            refine .any ?_
            rw [List.map_map, List.map_map, List.forall₂_map_left_iff,
              List.forall₂_map_right_iff]
            exact List.forall₂_same.mpr (fun operand _ =>
              settles_meaning tenant noTenant .eq (some actual) operand)
      cases negated with
      | false =>
          simpa only [Pred.lower, Bool.false_eq_true, if_false,
            Expr.evaluateOver] using settles
      | true =>
          simpa only [Pred.lower, Expr.evaluateOver, if_true,
            Truth.known_negate] using settles.neg

theorem Pred.settles_lowerList
    (noTenant : context.principal.tenant = none) :
    ∀ parts : List Pred, List.Forall₂ ThreeValued.Settles
        ((Pred.lowerList context parts).map (fun part => (part.evaluateOver row).known))
        ((Pred.lowerList (context.withTenant tenant) parts).map (fun part =>
          (part.evaluateOver row).known))
  | [] => .nil
  | part :: rest =>
      .cons (Pred.settles_lower noTenant part) (Pred.settles_lowerList noTenant rest)

end

end

/--
A row that a policy lets a caller without a tenant see, it lets the same caller
see under any tenant.
-/
theorem admits_withTenant
    [Platform] (predicate : Pred) (context : SecurityContext)
    (noTenant : context.principal.tenant = none)
    (tenant : Value) (row : Row)
    (admitted : (predicate.lower context).admits row = true) :
    (predicate.lower (context.withTenant tenant)).admits row = true := by
  have isTrue : ((predicate.lower context).evaluateOver row.get).known = some true := by
    rw [Expr.admits, Expr.evaluate] at admitted
    cases truth : (predicate.lower context).evaluateOver row.get with
    | true => rfl
    | false
    | unknown =>
        rw [truth] at admitted
        cases admitted
  have stays := Pred.settles_lower tenant row.get noTenant predicate true isTrue
  rw [Expr.admits, Expr.evaluate]
  cases truth : (predicate.lower (context.withTenant tenant)).evaluateOver row.get with
  | true => rfl
  | false =>
      rw [truth] at stays
      cases stays
  | unknown =>
      rw [truth] at stays
      cases stays

/-- A row of no tenant is shown to a caller that has none. -/
theorem admits_withTenant_unowned :
    let _ : Platform := asciiPlatform
    let predicate := Pred.or [.isNull 1 false, .compare 1 .eq .tenant]
    (predicate.lower (.withTenant ⟨⟨.i64 1, none, []⟩, false⟩ (.i64 7))).admits
      ⟨[.i64 3, .null]⟩ = true := by
  intro _ predicate
  exact admits_withTenant predicate ⟨⟨.i64 1, none, []⟩, false⟩ rfl (.i64 7)
    ⟨[.i64 3, .null]⟩ rfl

end SlateOrm
