import SlateOrm.QueryRows
import SlateOrm.ThreeValued

namespace SlateOrm

/-!
# What a predicate means

A predicate means a truth that may not be known: a comparison is not known of a
null or a missing column, membership in a list is the disjunction of its
comparisons, and the connectives are Kleene's.  Evaluation computes the meaning,
and the rewritings of predicates keep it.
-/

/-! ## Meanings -/

/-- A truth value as a truth that may not be known. -/
def Truth.known : Truth → Option Bool
  | .true => some Bool.true
  | .false => some Bool.false
  | .unknown => none

/-- A value that is not null. -/
def Value.held (value : Value) : Option Value :=
  if value.isNull then none else some value

/-- The value of a column, unless it is null or missing. -/
def Columns.held (row : Columns) (column : Ordinal) : Option Value :=
  (row column).bind Value.held

/-- The text of a column, unless it holds none. -/
def Columns.text (row : Columns) (column : Ordinal) : Option String :=
  match row column with
  | some (.str text) => some text
  | _ => none

/-- A comparison of values is known when both are held. -/
def CmpOp.meaning (op : CmpOp) (first second : Option Value) : Option Bool :=
  match first, second with
  | some actual, some value => some (op.apply (actual.cmp value))
  | _, _ => none

/-- Membership is a disjunction of comparisons, for a value that is held. -/
def inMeaning (actual : Option Value) (values : List Value) : Option Bool :=
  actual.bind (fun actual =>
    ThreeValued.any (values.map (fun value =>
      CmpOp.eq.meaning (some actual) value.held)))

section

variable [Platform]

mutual

/-- The truth that a predicate means for anything with columns. -/
def Expr.meaning (row : Columns) : Expr → Option Bool
  | .true => some Bool.true
  | .false => some Bool.false
  | .compare column op value => op.meaning (row.held column) value.held
  | .compareColumns left op right => op.meaning (row.held left) (row.held right)
  | .isNull column negated => some ((row.held column).isNone != negated)
  | .like column pattern negated insensitive =>
      (row.text column).map (fun text =>
        (if insensitive then
          likeMatches (Platform.toLowercase text) (Platform.toLowercase pattern)
        else
          likeMatches text pattern) != negated)
  | .matches column pattern negated insensitive =>
      (row.text column).map (fun text =>
        (Platform.compile pattern insensitive).any
          (fun regex => regex.isMatch text) != negated)
  | .contains column terms =>
      (row.text column).map (fun text =>
        !terms.isEmpty && terms.all (fun term => (tokenize text).contains term))
  | .in column values => inMeaning (row.held column) values
  | .inSorted column values anyNull =>
      inMeaning (row.held column) (values ++ if anyNull then [Value.null] else [])
  | .and parts => ThreeValued.all (Expr.meanings row parts)
  | .or parts => ThreeValued.any (Expr.meanings row parts)
  | .not inner => ThreeValued.neg (inner.meaning row)

def Expr.meanings (row : Columns) : List Expr → List (Option Bool)
  | [] => []
  | part :: rest => part.meaning row :: Expr.meanings row rest

end

end

/-! ## Predicates and their columns -/

mutual

/-- The predicate with every column put through a function. -/
def Expr.mapColumns (f : Ordinal → Ordinal) : Expr → Expr
  | .true => .true
  | .false => .false
  | .compare column op value => .compare (f column) op value
  | .compareColumns left op right => .compareColumns (f left) op (f right)
  | .contains column terms => .contains (f column) terms
  | .like column pattern negated insensitive =>
      .like (f column) pattern negated insensitive
  | .matches column pattern negated insensitive =>
      .matches (f column) pattern negated insensitive
  | .isNull column negated => .isNull (f column) negated
  | .in column values => .in (f column) values
  | .inSorted column values anyNull => .inSorted (f column) values anyNull
  | .and parts => .and (Expr.mapColumnsList f parts)
  | .or parts => .or (Expr.mapColumnsList f parts)
  | .not inner => .not (inner.mapColumns f)

def Expr.mapColumnsList (f : Ordinal → Ordinal) : List Expr → List Expr
  | [] => []
  | part :: rest => part.mapColumns f :: Expr.mapColumnsList f rest

end

mutual

/-- A predicate whose lists are sorted where they are looked up as sorted. -/
def Expr.Arranged : Expr → Prop
  | .inSorted _ values _ =>
      StrictlySortedBy Value.cmp values ∧ ∀ value ∈ values, value.isNull = Bool.false
  | .and parts => Expr.ArrangedList parts
  | .or parts => Expr.ArrangedList parts
  | .not inner => inner.Arranged
  | _ => True

def Expr.ArrangedList : List Expr → Prop
  | [] => True
  | part :: rest => part.Arranged ∧ Expr.ArrangedList rest

end

mutual

theorem Expr.arranged_prepared :
    ∀ {predicate : Expr}, predicate.Arranged → predicate.prepared.Arranged
  | .in column values, _ => by
      simp only [Expr.prepared]
      split
      · exact sorted_dedup values
      · trivial
  | .and parts, arranged
  | .or parts, arranged => by
      simp only [Expr.prepared, Expr.Arranged] at arranged ⊢
      exact Expr.arrangedList_prepared arranged
  | .not inner, arranged => by
      simp only [Expr.prepared, Expr.Arranged] at arranged ⊢
      exact Expr.arranged_prepared arranged
  | .inSorted .., arranged => arranged
  | .true, _
  | .false, _
  | .compare .., _
  | .compareColumns .., _
  | .isNull .., _
  | .like .., _
  | .matches .., _
  | .contains .., _ => trivial

theorem Expr.arrangedList_prepared :
    ∀ {parts : List Expr},
      Expr.ArrangedList parts → Expr.ArrangedList (Expr.preparedList parts)
  | [], _ => trivial
  | _ :: _, arranged =>
      ⟨Expr.arranged_prepared arranged.1, Expr.arrangedList_prepared arranged.2⟩

end

/-! ## Evaluation -/

@[simp] theorem Truth.known_true :
    Truth.true.known = some Bool.true := by
  rfl

@[simp] theorem Truth.known_false :
    Truth.false.known = some Bool.false := by
  rfl

@[simp] theorem Truth.known_unknown :
    Truth.unknown.known = none := by
  rfl

@[simp] theorem Truth.known_from
    (truth : Bool) :
    (Truth.from truth).known = some truth := by
  cases truth <;> rfl

@[simp] theorem Truth.known_negate
    (truth : Truth) :
    truth.negate.known = ThreeValued.neg truth.known := by
  cases truth <;> rfl

@[simp] theorem Value.held_null
    {value : Value}
    (isNull : value.isNull = true) :
    value.held = none :=
  if_pos isNull

@[simp] theorem Value.held_present
    {value : Value}
    (present : value.isNull = false) :
    value.held = some value :=
  if_neg (by simp [present])

theorem Columns.text_str
    {row : Columns} {column : Ordinal} {text : String}
    (isText : row column = some (.str text)) :
    row.text column = some text := by
  simp only [Columns.text, isText]

theorem Columns.text_other
    {row : Columns} {column : Ordinal}
    (isOther : ∀ text, row column = some (.str text) → False) :
    row.text column = none := by
  rw [Columns.text]
  split
  · next text isText => exact (isOther text isText).elim
  · rfl

theorem known_evaluateCompare
    (row : Columns) (column : Ordinal) (op : CmpOp) (value : Value) :
    (evaluateCompare row column op value).known =
      op.meaning (row.held column) value.held := by
  simp only [evaluateCompare, Columns.held]
  cases row column with
  | none => rfl
  | some actual =>
      cases isNull : actual.isNull <;> cases isNull' : value.isNull <;>
        simp [isNull, isNull', CmpOp.meaning]

theorem known_evaluateCompareColumns
    (row : Columns) (left : Ordinal) (op : CmpOp) (right : Ordinal) :
    (evaluateCompareColumns row left op right).known =
      op.meaning (row.held left) (row.held right) := by
  simp only [evaluateCompareColumns, Columns.held]
  cases row left with
  | none => rfl
  | some first =>
      cases row right with
      | none =>
          cases isNull : first.isNull <;>
            simp [isNull, CmpOp.meaning]
      | some second =>
          cases isNull : first.isNull <;> cases isNull' : second.isNull <;>
            simp [isNull, isNull', CmpOp.meaning]

/-- A list that is searched one by one is a disjunction of comparisons. -/
theorem known_evaluateIn
    (row : Columns) (column : Ordinal) (values : List Value) :
    (evaluateIn row column values).known = inMeaning (row.held column) values := by
  simp only [evaluateIn, inMeaning, Columns.held]
  cases row column with
  | none => rfl
  | some actual =>
      cases isNull : actual.isNull with
      | true => simp [isNull]
      | false =>
          have equal (value : Value) :
              CmpOp.eq.meaning (some actual) value.held = some true ↔
                (!value.isNull && value == actual) = true := by
            cases isNull' : value.isNull with
            | true => simp [isNull', CmpOp.meaning]
            | false =>
                rw [Value.held_present isNull', Bool.not_false,
                  Bool.true_and, Value.beq_iff_canonical]
                simp only [CmpOp.meaning, CmpOp.apply, Option.some.injEq,
                  beq_iff_eq, Value.cmp_eq_iff_canonical]
                exact eq_comm
          have unknown (value : Value) :
              CmpOp.eq.meaning (some actual) value.held = none ↔
                value.isNull = true := by
            cases isNull' : value.isNull <;>
              simp [isNull', CmpOp.meaning]
          simp only [Option.bind_some, Value.held_present isNull,
            ThreeValued.any_eq, List.mem_map, equal, unknown, isNull,
            Bool.false_eq_true, if_false, List.any_eq_true]
          split
          · rfl
          · split <;> rfl

section

variable [Platform]

theorem Expr.known_evaluateAnd
    (row : Columns) (parts : List Expr) {result : Truth}
    (isOpen : result ≠ .false) :
    (Expr.evaluateAnd row result parts).known =
      ThreeValued.conj result.known (ThreeValued.all
        (parts.map (fun part => (part.evaluateOver row).known))) := by
  induction parts generalizing result with
  | nil => simp [Expr.evaluateAnd]
  | cons part rest ih =>
      simp only [Expr.evaluateAnd, List.map_cons, ThreeValued.all_cons]
      cases part.evaluateOver row with
      | true => simpa using ih isOpen
      | false => simp
      | unknown =>
          dsimp only
          rw [ih (by decide), ← ThreeValued.conj_assoc]
          cases result with
          | false => exact absurd rfl isOpen
          | true
          | unknown => simp

theorem Expr.known_evaluateOr
    (row : Columns) (parts : List Expr) {result : Truth}
    (isOpen : result ≠ .true) :
    (Expr.evaluateOr row result parts).known =
      ThreeValued.disj result.known (ThreeValued.any
        (parts.map (fun part => (part.evaluateOver row).known))) := by
  induction parts generalizing result with
  | nil => simp [Expr.evaluateOr]
  | cons part rest ih =>
      simp only [Expr.evaluateOr, List.map_cons, ThreeValued.any_cons]
      cases part.evaluateOver row with
      | false => simpa using ih isOpen
      | true => simp
      | unknown =>
          dsimp only
          rw [ih (by decide), ← ThreeValued.disj_assoc]
          cases result with
          | true => exact absurd rfl isOpen
          | false
          | unknown => simp

theorem Expr.known_and
    (row : Columns) (parts : List Expr) :
    ((Expr.and parts).evaluateOver row).known = ThreeValued.all
        (parts.map (fun part => (part.evaluateOver row).known)) := by
  simp only [Expr.evaluateOver]
  rw [Expr.known_evaluateAnd row parts (by decide)]
  exact ThreeValued.true_conj _

theorem Expr.known_or
    (row : Columns) (parts : List Expr) :
    ((Expr.or parts).evaluateOver row).known = ThreeValued.any
        (parts.map (fun part => (part.evaluateOver row).known)) := by
  simp only [Expr.evaluateOver]
  rw [Expr.known_evaluateOr row parts (by decide)]
  exact ThreeValued.false_disj _

mutual

/-- What a predicate evaluates to is what it means. -/
theorem Expr.known_evaluateOver
    (row : Columns) :
    ∀ {predicate : Expr}, predicate.Arranged →
      (predicate.evaluateOver row).known = predicate.meaning row
  | .true, _ => rfl
  | .false, _ => rfl
  | .compare column op value, _ => known_evaluateCompare row column op value
  | .compareColumns left op right, _ => known_evaluateCompareColumns row left op right
  | .isNull column negated, _ => by
      simp only [Expr.evaluateOver, Expr.meaning, Truth.known_from, Columns.held]
      cases row column with
      | none => rfl
      | some value => cases isNull : value.isNull <;> simp [isNull]
  | .like column pattern negated insensitive, _ => by
      simp only [Expr.evaluateOver, Expr.meaning, evaluateLike]
      split
      · next text isText => simp [Columns.text_str isText]
      · next isOther => simp [Columns.text_other isOther]
  | .matches column pattern negated insensitive, _ => by
      simp only [Expr.evaluateOver, Expr.meaning, evaluateMatches]
      split
      · next text isText =>
          rw [Columns.text_str isText]
          cases Platform.compile pattern insensitive <;> simp
      · next isOther => simp [Columns.text_other isOther]
  | .contains column terms, _ => by
      simp only [Expr.evaluateOver, Expr.meaning, evaluateContains]
      split
      · next text isText =>
          rw [Columns.text_str isText]
          cases terms.isEmpty <;> simp
      · next isOther => simp [Columns.text_other isOther]
  | .in column values, _ => known_evaluateIn row column values
  | .inSorted column values anyNull, arranged => by
      simp only [Expr.evaluateOver, Expr.meaning]
      rw [evaluateInSorted_eq arranged.1 arranged.2, known_evaluateIn]
  | .and parts, arranged => by
      rw [Expr.known_and, Expr.meaning, Expr.known_evaluateList row arranged]
  | .or parts, arranged => by
      rw [Expr.known_or, Expr.meaning, Expr.known_evaluateList row arranged]
  | .not inner, arranged => by
      simp only [Expr.evaluateOver, Expr.meaning, Truth.known_negate]
      rw [@Expr.known_evaluateOver row inner arranged]

theorem Expr.known_evaluateList
    (row : Columns) :
    ∀ {parts : List Expr}, Expr.ArrangedList parts →
      parts.map (fun part => (part.evaluateOver row).known) = Expr.meanings row parts
  | [], _ => rfl
  | part :: rest, arranged => by
      rw [List.map_cons, Expr.meanings, Expr.known_evaluateOver row arranged.1,
        Expr.known_evaluateList row arranged.2]

end

/-! ## Rewriting -/

theorem Expr.known_andThen
    (row : Columns) (first second : Expr) :
    ((first.andThen second).evaluateOver row).known =
      ThreeValued.conj (first.evaluateOver row).known
        (second.evaluateOver row).known := by
  fun_cases Expr.andThen first second with
  | case1 => simp [Expr.evaluateOver]
  | case2 => simp [Expr.evaluateOver]
  | case3 => simp [Expr.evaluateOver]
  | case4 => simp [Expr.evaluateOver]
  | case5 first second => simp [Expr.known_and, ThreeValued.all_append]
  | case6 parts => simp [Expr.known_and, ThreeValued.all_append]
  | case7 parts =>
      rw [ThreeValued.conj_comm]
      simp [Expr.known_and, ThreeValued.all_append]
  | case8 => simp [Expr.known_and]

theorem Expr.known_all
    (row : Columns) (parts : List Expr) :
    ((Expr.all parts).evaluateOver row).known = ThreeValued.all
        (parts.map (fun part => (part.evaluateOver row).known)) := by
  have folded (start : Expr) :
      ((parts.foldl Expr.andThen start).evaluateOver row).known =
        ThreeValued.conj (start.evaluateOver row).known (ThreeValued.all
          (parts.map (fun part => (part.evaluateOver row).known))) := by
    induction parts generalizing start with
    | nil => simp
    | cons part rest ih =>
        rw [List.foldl_cons, ih, Expr.known_andThen,
          ThreeValued.conj_assoc, List.map_cons, ThreeValued.all_cons]
  exact (folded .true).trans (ThreeValued.true_conj _)

mutual

theorem Expr.evaluateOver_mapColumns
    (f : Ordinal → Ordinal) (row : Columns) :
    ∀ predicate : Expr, (predicate.mapColumns f).evaluateOver row =
        predicate.evaluateOver (fun column => row (f column))
  | .and parts => by
      simp only [Expr.mapColumns, Expr.evaluateOver]
      exact Expr.evaluateAnd_of_map (Expr.evaluateList_mapColumns f row parts) _
  | .or parts => by
      simp only [Expr.mapColumns, Expr.evaluateOver]
      exact Expr.evaluateOr_of_map (Expr.evaluateList_mapColumns f row parts) _
  | .not inner => by
      simp only [Expr.mapColumns, Expr.evaluateOver]
      rw [Expr.evaluateOver_mapColumns f row inner]
  | .true
  | .false
  | .compare ..
  | .compareColumns ..
  | .isNull ..
  | .like ..
  | .matches ..
  | .contains ..
  | .in ..
  | .inSorted .. => rfl

theorem Expr.evaluateList_mapColumns
    (f : Ordinal → Ordinal) (row : Columns) :
    ∀ parts : List Expr, (Expr.mapColumnsList f parts).map (Expr.evaluateOver row) =
        parts.map (Expr.evaluateOver (fun column => row (f column)))
  | [] => rfl
  | part :: rest =>
      congrArg₂ List.cons (Expr.evaluateOver_mapColumns f row part)
        (Expr.evaluateList_mapColumns f row rest)

end

theorem Expr.meaning_in
    (row : Columns) (column : Ordinal) {values : List Value}
    (nonempty : values ≠ []) :
    (Expr.in column values).meaning row = ThreeValued.any (values.map (fun value =>
        (Expr.compare column .eq value).meaning row)) := by
  simp only [Expr.meaning, inMeaning]
  cases row.held column with
  | some actual => rfl
  | none =>
      refine (ThreeValued.any_unknown (by simpa using nonempty) ?_).symm
      intro truth member
      obtain ⟨value, -, rfl⟩ := List.mem_map.mp member
      rfl

/--
A predicate evaluates to what it means, and to the same prepared; conjoining
predicates is the conjunction of what they evaluate to, a predicate with its
columns renamed is the predicate of the renamed row, and membership in a list of
values means the disjunction of the comparisons with them.
-/
theorem evaluateOver_exact
    (predicate : Expr) (row : Columns) :
    (predicate.Arranged → (predicate.evaluateOver row).known = predicate.meaning row) ∧
      predicate.prepared.evaluateOver row = predicate.evaluateOver row ∧
      (∀ other : Expr, ((predicate.andThen other).evaluateOver row).known =
          ThreeValued.conj (predicate.evaluateOver row).known
            (other.evaluateOver row).known) ∧
      (∀ parts : List Expr, ((Expr.all parts).evaluateOver row).known = ThreeValued.all
            (parts.map (fun part => (part.evaluateOver row).known))) ∧
      (∀ f : Ordinal → Ordinal, (predicate.mapColumns f).evaluateOver row =
          predicate.evaluateOver (fun column => row (f column))) ∧
      ∀ (column : Ordinal) (values : List Value), values ≠ [] →
        (Expr.in column values).meaning row = ThreeValued.any (values.map (fun value =>
            (Expr.compare column .eq value).meaning row)) :=
  ⟨Expr.known_evaluateOver row, Expr.evaluateOver_prepared row predicate,
    Expr.known_andThen row predicate, Expr.known_all row,
    fun f => Expr.evaluateOver_mapColumns f row predicate,
    fun column _ => Expr.meaning_in row column⟩

end

/-- A list prepared for lookup, with a null, and a value that it lacks. -/
theorem evaluateOver_preparedList :
    letI := asciiPlatform
    ((Expr.inSorted 0 [.i64 1, .u64 2] true).evaluateOver
        (fun _ => some (.u64 3))).known =
      (Expr.inSorted 0 [.i64 1, .u64 2] true).meaning (fun _ => some (.u64 3)) :=
  letI := asciiPlatform
  (evaluateOver_exact (.inSorted 0 [.i64 1, .u64 2] true) (fun _ => some (.u64 3))).1
    ⟨by simp only [StrictlySortedBy, List.pairwise_cons]; decide, by decide⟩

end SlateOrm
