import SlateOrm.Planner
import SlateOrm.ExprCanonical
import SlateOrm.ValueOrder

namespace SlateOrm

open List

/-!
# Implication of predicates

A partial index may serve a query only if it holds every row the query admits.
The planner decides this by a few syntactic rules.  They are sound: whatever
they call implied holds wherever the query holds, nulls and connectives
included.
-/

/-! ## Truth values -/

namespace Truth

theorem admits_iff
    (truth : Truth) :
    truth.admits = Bool.true ↔ truth = .true := by
  cases truth <;> simp [admits]

@[simp] theorem from_eq_true_iff
    (value : Bool) :
    Truth.from value = .true ↔ value = Bool.true := by
  cases value <;> simp [Truth.from]

@[simp] theorem from_eq_false_iff
    (value : Bool) :
    Truth.from value = .false ↔ value = Bool.false := by
  cases value <;> simp [Truth.from]

@[simp] theorem negate_eq_true_iff
    (truth : Truth) :
    truth.negate = .true ↔ truth = .false := by
  cases truth <;> simp [negate]

end Truth

/-! ## Comparisons -/

namespace CmpOp

section

variable
  (ordering : Ordering)

include ordering

theorem apply_ne_iff :
    CmpOp.apply .ne ordering = true ↔ ordering ≠ .eq := by
  cases ordering <;> decide

theorem apply_lt_iff :
    CmpOp.apply .lt ordering = true ↔ ordering = .lt := by
  cases ordering <;> decide

theorem apply_le_iff :
    CmpOp.apply .le ordering = true ↔ ordering.isLE = true := by
  cases ordering <;> decide

theorem apply_gt_iff :
    CmpOp.apply .gt ordering = true ↔ ordering = .gt := by
  cases ordering <;> decide

theorem apply_ge_iff :
    CmpOp.apply .ge ordering = true ↔ ordering.isGE = true := by
  cases ordering <;> decide

end

end CmpOp

section

variable {actual value goalValue : Value}

variable {goal : CmpOp}

theorem apply_of_lt
    (implied : comparisonImplies .lt value goal goalValue = true)
    (below : actual.cmp value = .lt) :
    goal.apply (actual.cmp goalValue) = true := by
  have lower : (value.cmp goalValue).isLE → actual.cmp goalValue = .lt :=
    fun isLE => Std.TransCmp.lt_of_lt_of_isLE below isLE
  cases goal with
  | lt => exact (CmpOp.apply_lt_iff _).mpr (lower implied)
  | le =>
      rw [CmpOp.apply_le_iff, lower implied]
      rfl
  | ne =>
      rw [CmpOp.apply_ne_iff, lower (Std.OrientedCmp.isGE_iff_isLE.mp implied)]
      decide
  | eq | gt | ge => cases implied

theorem apply_of_isLE
    (implied : comparisonImplies .le value goal goalValue = true)
    (notAbove : (actual.cmp value).isLE) :
    goal.apply (actual.cmp goalValue) = true := by
  have lower : value.cmp goalValue = .lt → actual.cmp goalValue = .lt :=
    fun below => Std.TransCmp.lt_of_isLE_of_lt notAbove below
  cases goal with
  | lt =>
      exact (CmpOp.apply_lt_iff _).mpr (lower (Ordering.isLT_iff_eq_lt.mp implied))
  | le =>
      exact (CmpOp.apply_le_iff _).mpr (Std.TransCmp.isLE_trans notAbove implied)
  | ne =>
      rw [CmpOp.apply_ne_iff, lower (Std.OrientedCmp.lt_of_gt
        (Ordering.isGT_iff_eq_gt.mp implied))]
      decide
  | eq | gt | ge => cases implied

theorem apply_of_gt
    (implied : comparisonImplies .gt value goal goalValue = true)
    (above : actual.cmp value = .gt) :
    goal.apply (actual.cmp goalValue) = true := by
  have higher : (value.cmp goalValue).isGE → actual.cmp goalValue = .gt :=
    fun isGE => Std.TransCmp.gt_of_gt_of_isGE above isGE
  cases goal with
  | gt => exact (CmpOp.apply_gt_iff _).mpr (higher implied)
  | ge =>
      rw [CmpOp.apply_ge_iff, higher implied]
      rfl
  | ne =>
      rw [CmpOp.apply_ne_iff, higher (Std.OrientedCmp.isGE_iff_isLE.mpr implied)]
      decide
  | eq | lt | le => cases implied

theorem apply_of_isGE
    (implied : comparisonImplies .ge value goal goalValue = true)
    (notBelow : (actual.cmp value).isGE) :
    goal.apply (actual.cmp goalValue) = true := by
  have higher : value.cmp goalValue = .gt → actual.cmp goalValue = .gt :=
    fun above => Std.TransCmp.gt_of_isGE_of_gt notBelow above
  cases goal with
  | gt =>
      exact (CmpOp.apply_gt_iff _).mpr (higher (Ordering.isGT_iff_eq_gt.mp implied))
  | ge =>
      exact (CmpOp.apply_ge_iff _).mpr (Std.TransCmp.isGE_trans notBelow implied)
  | ne =>
      rw [CmpOp.apply_ne_iff, higher (Std.OrientedCmp.gt_of_lt
        (Ordering.isLT_iff_eq_lt.mp implied))]
      decide
  | eq | lt | le => cases implied

theorem apply_of_comparisonImplies
    {held goal : CmpOp}
    (implied : comparisonImplies held value goal goalValue = true)
    (holds : held.apply (actual.cmp value) = true) :
    goal.apply (actual.cmp goalValue) = true := by
  cases held with
  | eq =>
      have same := Value.canonical_eq_of_cmp_eq (beq_iff_eq.mp holds)
      rw [(cmp_respects_left goalValue).eq same]
      simpa [comparisonImplies, satisfies] using implied
  | ne => cases implied
  | lt => exact apply_of_lt implied ((CmpOp.apply_lt_iff _).mp holds)
  | le => exact apply_of_isLE implied ((CmpOp.apply_le_iff _).mp holds)
  | gt => exact apply_of_gt implied ((CmpOp.apply_gt_iff _).mp holds)
  | ge => exact apply_of_isGE implied ((CmpOp.apply_ge_iff _).mp holds)
end

/-! ## Expressions that are the same -/

section

variable {α β : Type}

theorem binarySearchFrom_map
    (function : α → β) (compareTo : β → Ordering) (values : List α)
    (fuel base size : Nat) :
    binarySearchFrom compareTo (values.map function) fuel base size =
      binarySearchFrom (fun value => compareTo (function value)) values fuel
        base size := by
  induction fuel generalizing base size with
  | zero => rfl
  | succ fuel ih =>
      rw [binarySearchFrom, binarySearchFrom]
      simp only [ih, getElem?_map]
      cases values[base + size / 2]? with
      | none
      | some value => rfl

theorem binarySearchBy_map
    (function : α → β) (compareTo : β → Ordering) (values : List α) :
    binarySearchBy compareTo (values.map function) =
      binarySearchBy (fun value => compareTo (function value)) values := by
  rw [binarySearchBy, binarySearchBy]
  simp only [binarySearchFrom_map, length_map, getElem?_map,
    isEmpty_map, Option.map_map]
  rfl

end

section

variable {row : Columns}

theorem evaluateCompare_of_same
    (column : Ordinal) (op : CmpOp) {value value' : Value}
    (same : value.canonical = value'.canonical) :
    evaluateCompare row column op value = evaluateCompare row column op value' := by
  unfold evaluateCompare
  cases row column with
  | none => rfl
  | some actual =>
      dsimp only
      rw [isNull_respects.eq same, (cmp_respects_right actual).eq same]

theorem evaluateIn_canonical
    (column : Ordinal) (values : List Value) :
    evaluateIn row column (values.map Value.canonical) =
      evaluateIn row column values := by
  have equal : ∀ actual value : Value,
      (value.canonical == actual) = (value == actual) :=
    fun actual value => by
      simp only [BEq.beq, Value.cmp_canonical_left]
  unfold evaluateIn
  cases row column with
  | none => rfl
  | some actual => simp only [any_map, Function.comp_def, Value.isNull_canonical, equal]

theorem evaluateInSorted_canonical
    (column : Ordinal) (values : List Value) (anyNull : Bool) :
    evaluateInSorted row column (values.map Value.canonical) anyNull =
      evaluateInSorted row column values anyNull := by
  unfold evaluateInSorted
  cases row column with
  | none => rfl
  | some actual => simp only [binarySearchBy_map, Value.cmp_canonical_left]

mutual

theorem Expr.same_refl :
    ∀ predicate : Expr, predicate.same predicate = Bool.true
  | .true => rfl
  | .false => rfl
  | .compare column op value => by
      simp [Expr.same, Value.beq_iff_canonical]
  | .compareColumns left op right => by simp [Expr.same]
  | .isNull column negated => by simp [Expr.same]
  | .like column pattern negated insensitive => by simp [Expr.same]
  | .matches column pattern negated insensitive => by simp [Expr.same]
  | .contains column terms => by simp [Expr.same]
  | .in column values => by
      simp [Expr.same, Value.beq_list_iff_canonical]
  | .inSorted column values anyNull => by
      simp [Expr.same, Value.beq_list_iff_canonical]
  | .and parts => Expr.sameList_refl parts
  | .or parts => Expr.sameList_refl parts
  | .not inner => Expr.same_refl inner

theorem Expr.sameList_refl :
    ∀ parts : List Expr, Expr.sameList parts parts = Bool.true
  | [] => rfl
  | part :: rest => by
      rw [Expr.sameList, Expr.same_refl part, Expr.sameList_refl rest]
      rfl

end

variable [Platform]

mutual

/-- Predicates that are the same have one truth. -/
theorem Expr.evaluateOver_of_same :
    ∀ first second : Expr, first.same second = Bool.true →
        first.evaluateOver row = second.evaluateOver row
  | .true, second, same
  | .false, second, same => by
      cases second <;> first | rfl | cases same
  | .compare column op value, second, same => by
      cases second with
      | compare column' op' value' =>
          simp only [Expr.same, Bool.and_eq_true, beq_iff_eq] at same
          obtain ⟨⟨rfl, rfl⟩, equal⟩ := same
          exact evaluateCompare_of_same column op
            ((Value.beq_iff_canonical _ _).mp equal)
      | _ => cases same
  | .compareColumns .., second, same
  | .isNull .., second, same
  | .like .., second, same
  | .matches .., second, same
  | .contains .., second, same => by
      cases second <;> try cases same
      all_goals
        simp only [Expr.same, Bool.and_eq_true, beq_iff_eq, and_assoc] at same
        simp only [same]
  | .in column values, second, same => by
      cases second with
      | «in» column' values' =>
          simp only [Expr.same, Bool.and_eq_true, beq_iff_eq] at same
          obtain ⟨rfl, equal⟩ := same
          rw [Expr.evaluateOver, Expr.evaluateOver, ← evaluateIn_canonical column
            values, (Value.beq_list_iff_canonical _ _).mp equal, evaluateIn_canonical]
      | _ => cases same
  | .inSorted column values anyNull, second, same => by
      cases second with
      | inSorted column' values' anyNull' =>
          simp only [Expr.same, Bool.and_eq_true, beq_iff_eq] at same
          obtain ⟨⟨rfl, equal⟩, rfl⟩ := same
          rw [Expr.evaluateOver, Expr.evaluateOver,
            ← evaluateInSorted_canonical column values,
            (Value.beq_list_iff_canonical _ _).mp equal,
            evaluateInSorted_canonical]
      | _ => cases same
  | .and parts, second, same => by
      cases second with
      | and parts' =>
          exact Expr.evaluateAnd_of_map (Expr.evaluateList_of_same parts parts' same) _
      | _ => cases same
  | .or parts, second, same => by
      cases second with
      | or parts' =>
          exact Expr.evaluateOr_of_map (Expr.evaluateList_of_same parts parts' same) _
      | _ => cases same
  | .not inner, second, same => by
      cases second with
      | not inner' =>
          rw [Expr.evaluateOver, Expr.evaluateOver,
            Expr.evaluateOver_of_same inner inner' same]
      | _ => cases same

theorem Expr.evaluateList_of_same :
    ∀ parts parts' : List Expr, Expr.sameList parts parts' = Bool.true →
        parts.map (Expr.evaluateOver row) = parts'.map (Expr.evaluateOver row)
  | [], [], _ => rfl
  | [], _ :: _, same => by cases same
  | _ :: _, [], same => by cases same
  | part :: rest, part' :: rest', same => by
      simp only [Expr.sameList, Bool.and_eq_true] at same
      exact congrArg₂ cons (Expr.evaluateOver_of_same part part' same.1)
        (Expr.evaluateList_of_same rest rest' same.2)

end

mutual

/-- Scalars that are the same have equal values. -/
theorem Scalar.evaluate_of_same :
    ∀ first second : Scalar, first.same second = true →
        (first.evaluate row).canonical = (second.evaluate row).canonical
  | .column ordinal, second, same => by
      cases second with
      | column ordinal' =>
          simp only [Scalar.same, beq_iff_eq] at same
          rw [same]
      | _ => cases same
  | .literal value, second, same => by
      cases second with
      | literal value' => exact (Value.beq_iff_canonical _ _).mp same
      | _ => cases same
  | .add left right, second, same
  | .sub left right, second, same
  | .mul left right, second, same
  | .div left right, second, same => by
      cases second <;> try cases same
      next left' right' =>
        simp only [Scalar.same, Bool.and_eq_true] at same
        rw [Scalar.evaluate, Scalar.evaluate, arithmetic_congr _
          (Scalar.evaluate_of_same left left' same.1)
          (Scalar.evaluate_of_same right right' same.2)]
  | .length inner, second, same
  | .lower inner, second, same
  | .upper inner, second, same
  | .round inner, second, same => by
      cases second <;> try cases same
      next inner' =>
        have values := Scalar.evaluate_of_same inner inner' same
        rw [Scalar.evaluate, Scalar.evaluate]
        refine congrArg Value.canonical ?_
        first
        | exact lengthOf_respects.eq values
        | exact lowerOf_respects.eq values
        | exact upperOf_respects.eq values
        | exact roundOf_respects.eq values
  | .concat parts, second, same => by
      cases second with
      | concat parts' =>
          rw [Scalar.evaluate, Scalar.evaluate,
            Scalar.evaluateConcat_of_same parts parts' same ""]
      | _ => cases same
  | .extract _ value, second, same
  | .calendarPart _ value, second, same
  | .calendarTrunc _ value, second, same
  | .zoneShift _ value, second, same
  | .dateTrunc _ value, second, same => by
      cases second <;> try cases same
      next value' =>
        simp only [Scalar.same, Bool.and_eq_true, beq_iff_eq] at same
        rw [Scalar.evaluate, Scalar.evaluate, same.1, (ofSeconds_respects _).eq
          (Scalar.evaluate_of_same value value' same.2)]
  | .case branches otherwise, second, same => by
      cases second with
      | case branches' otherwise' =>
          simp only [Scalar.same, Bool.and_eq_true] at same
          have taken := Scalar.evaluateCase_of_same branches branches' same.1
          rw [Scalar.evaluate, Scalar.evaluate]
          cases first : Scalar.evaluateCase row branches with
          | none =>
              cases other : Scalar.evaluateCase row branches' with
              | none => exact Scalar.evaluate_of_same otherwise otherwise' same.2
              | some value => simp [first, other] at taken
          | some value =>
              cases other : Scalar.evaluateCase row branches' with
              | none => simp [first, other] at taken
              | some value' => simpa [first, other] using taken
      | _ => cases same
  | .coalesce parts, second, same => by
      cases second with
      | coalesce parts' =>
          rw [Scalar.evaluate, Scalar.evaluate]
          exact Scalar.evaluateCoalesce_of_same parts parts' same
      | _ => cases same
  | .distance left right metric, second, same => by
      cases second with
      | distance left' right' metric' =>
          simp only [Scalar.same, Bool.and_eq_true, beq_iff_eq] at same
          obtain ⟨⟨sameLeft, sameRight⟩, rfl⟩ := same
          rw [Scalar.evaluate, Scalar.evaluate, ← distanceOf_canonical,
            Scalar.evaluate_of_same left left' sameLeft, Scalar.evaluate_of_same
            right right' sameRight, distanceOf_canonical]
      | _ => cases same
  | .regexpReplace value pattern replacement, second, same => by
      cases second with
      | regexpReplace value' pattern' replacement' =>
          simp only [Scalar.same, Bool.and_eq_true, beq_iff_eq] at same
          obtain ⟨⟨sameValue, rfl⟩, rfl⟩ := same
          rw [Scalar.evaluate, Scalar.evaluate, (regexpReplaceOf_respects pattern
            replacement).eq (Scalar.evaluate_of_same value value' sameValue)]
      | _ => cases same

theorem Scalar.evaluateConcat_of_same :
    ∀ parts parts' : List Scalar, Scalar.sameList parts parts' = true →
        ∀ out, Scalar.evaluateConcat row out parts =
          Scalar.evaluateConcat row out parts'
  | [], [], _, _ => rfl
  | [], _ :: _, same, _ => by cases same
  | _ :: _, [], same, _ => by cases same
  | part :: rest, part' :: rest', same, out => by
      simp only [Scalar.sameList, Bool.and_eq_true] at same
      rw [Scalar.evaluateConcat, Scalar.evaluateConcat,
        concatText_respects.eq (Scalar.evaluate_of_same part part' same.1)]
      cases concatText (part'.evaluate row) with
      | none => rfl
      | some text => exact Scalar.evaluateConcat_of_same rest rest' same.2 (out ++ text)

theorem Scalar.evaluateCase_of_same :
    ∀ branches branches' : List (Expr × Scalar),
      Scalar.sameBranches branches branches' = true →
        (Scalar.evaluateCase row branches).map Value.canonical =
          (Scalar.evaluateCase row branches').map Value.canonical
  | [], [], _ => rfl
  | [], _ :: _, same => by cases same
  | _ :: _, [], same => by cases same
  | (condition, result) :: rest, (condition', result') :: rest', same => by
      simp only [Scalar.sameBranches, Bool.and_eq_true] at same
      obtain ⟨⟨sameCondition, sameResult⟩, sameRest⟩ := same
      rw [Scalar.evaluateCase, Scalar.evaluateCase, Expr.admitsOver, Expr.admitsOver,
        Expr.evaluateOver_of_same condition condition' sameCondition]
      split
      · exact congrArg some (Scalar.evaluate_of_same result result' sameResult)
      · exact Scalar.evaluateCase_of_same rest rest' sameRest

theorem Scalar.evaluateCoalesce_of_same :
    ∀ parts parts' : List Scalar, Scalar.sameList parts parts' = true →
        (Scalar.evaluateCoalesce row parts).canonical =
          (Scalar.evaluateCoalesce row parts').canonical
  | [], [], _ => rfl
  | [], _ :: _, same => by cases same
  | _ :: _, [], same => by cases same
  | part :: rest, part' :: rest', same => by
      simp only [Scalar.sameList, Bool.and_eq_true] at same
      have samePart := Scalar.evaluate_of_same part part' same.1
      rw [Scalar.evaluateCoalesce, Scalar.evaluateCoalesce, isNull_respects.eq samePart]
      split
      · exact Scalar.evaluateCoalesce_of_same rest rest' same.2
      · exact samePart

end

/-! ## Connectives -/

theorem Expr.evaluateAnd_eq_true_iff
    (parts : List Expr) (result : Truth) :
    Expr.evaluateAnd row result parts = .true ↔
      result = .true ∧ ∀ part ∈ parts, part.evaluateOver row = .true := by
  induction parts generalizing result with
  | nil => simp [Expr.evaluateAnd]
  | cons part rest ih =>
      rw [Expr.evaluateAnd, forall_mem_cons]
      split
      · next isFalse => simp [isFalse]
      · next isUnknown =>
          rw [ih]
          simp [isUnknown]
      · next isTrue =>
          rw [ih]
          simp [isTrue]

theorem Expr.evaluateOr_eq_true_iff
    (parts : List Expr) {result : Truth}
    (notYet : result ≠ .true) :
    Expr.evaluateOr row result parts = .true ↔
      ∃ part ∈ parts, part.evaluateOver row = .true := by
  induction parts generalizing result with
  | nil => simpa [Expr.evaluateOr] using notYet
  | cons part rest ih =>
      rw [Expr.evaluateOr, exists_mem_cons_iff]
      split
      · next isTrue => simp [isTrue]
      · next isUnknown =>
          have notTrue : Truth.unknown ≠ .true := by decide
          rw [ih notTrue]
          simp [isUnknown]
      · next isFalse =>
          rw [ih notYet]
          simp [isFalse]

mutual

theorem Expr.evaluateOver_eq_true_iff :
    ∀ predicate : Expr, predicate.evaluateOver row = .true ↔
        ∀ conjunct ∈ predicate.conjuncts, conjunct.evaluateOver row = .true
  | .true => by simp [Expr.evaluateOver, Expr.conjuncts]
  | .and parts => by
      rw [Expr.evaluateOver, Expr.evaluateAnd_eq_true_iff, Expr.conjuncts,
        ← Expr.forall_evaluateOver_iff parts]
      simp
  | .false
  | .compare ..
  | .compareColumns ..
  | .isNull ..
  | .like ..
  | .matches ..
  | .contains ..
  | .in ..
  | .inSorted ..
  | .or ..
  | .not .. => by simp [Expr.conjuncts]

theorem Expr.forall_evaluateOver_iff :
    ∀ parts : List Expr, (∀ part ∈ parts, part.evaluateOver row = .true) ↔
        ∀ conjunct ∈ Expr.conjunctsList parts, conjunct.evaluateOver row = .true
  | [] => by simp [Expr.conjunctsList]
  | part :: rest => by
      rw [forall_mem_cons, Expr.conjunctsList, forall_mem_append,
        Expr.evaluateOver_eq_true_iff part, Expr.forall_evaluateOver_iff rest]

end

/-! ## Leaves -/

/-- A column that holds a value other than null. -/
def Columns.Present (row : Columns) (column : Ordinal) : Prop :=
  ∃ actual, row column = some actual ∧ actual.isNull = false

variable {column : Ordinal}

omit [Platform] in
theorem evaluateCompare_eq_true_iff
    {op : CmpOp} {value : Value} :
    evaluateCompare row column op value = .true ↔
      ∃ actual, row column = some actual ∧ actual.isNull = false ∧
        value.isNull = false ∧ op.apply (actual.cmp value) = true := by
  unfold evaluateCompare
  cases row column with
  | none => simp
  | some actual =>
      cases isNull : actual.isNull <;>
        cases isNull' : value.isNull <;>
        simp_all

omit [Platform] in
theorem evaluateIn_eq_true_iff
    {values : List Value} :
    evaluateIn row column values = .true ↔
      ∃ actual, row column = some actual ∧ actual.isNull = false ∧
        ∃ value ∈ values, value.isNull = false ∧
          value.canonical = actual.canonical := by
  unfold evaluateIn
  cases row column with
  | none => simp
  | some actual =>
      have found : values.any (fun value => !value.isNull && value == actual) = true ↔
          ∃ value ∈ values, value.isNull = false ∧
            value.canonical = actual.canonical := by
        simp only [any_eq_true, Bool.and_eq_true, Bool.not_eq_true',
          Value.beq_iff_canonical]
      simp only [Option.some.injEq, exists_eq_left']
      rw [← found]
      cases actual.isNull with
      | true => simp
      | false =>
          simp only [Bool.false_eq_true, if_false, true_and]
          split
          · next isFound => simp [isFound]
          · next notFound =>
              simp only [notFound]
              split <;> decide

/-- Such a predicate knows nothing of a row with a null in the column. -/
theorem present_of_unknownOnNull
    {query : Expr}
    (unknown : unknownOnNull query column = true)
    (known : query.evaluateOver row ≠ .unknown) :
    row.Present column := by
  by_contra absent
  have isNull : ∀ actual, row column = some actual → actual.isNull = true := by
    intro actual found
    by_contra notNull
    exact absent ⟨actual, found, Bool.eq_false_iff.mpr notNull⟩
  apply known
  cases query with
  | compare on op value =>
      simp only [unknownOnNull, Bool.and_eq_true, beq_iff_eq] at unknown
      obtain ⟨rfl, -⟩ := unknown
      rw [Expr.evaluateOver, evaluateCompare]
      split
      · rfl
      · next actual found => simp [isNull actual found]
  | «in» on values =>
      obtain rfl := beq_iff_eq.mp unknown
      rw [Expr.evaluateOver, evaluateIn]
      split
      · rfl
      · next actual found => simp [isNull actual found]
  | like on pattern negated insensitive =>
      obtain rfl := beq_iff_eq.mp unknown
      rw [Expr.evaluateOver, evaluateLike]
      split
      · next text found => cases isNull _ found
      · rfl
  | «matches» on pattern negated insensitive =>
      obtain rfl := beq_iff_eq.mp unknown
      rw [Expr.evaluateOver, evaluateMatches]
      split
      · next text found => cases isNull _ found
      · rfl
  | compareColumns left op right =>
      simp only [unknownOnNull, Bool.or_eq_true, beq_iff_eq] at unknown
      rw [Expr.evaluateOver, evaluateCompareColumns]
      split
      · next first second foundLeft foundRight =>
          rcases unknown with rfl | rfl
          · simp [isNull first foundLeft]
          · simp [isNull second foundRight]
      · rfl
  | _ => cases unknown

theorem present_of_isNull
    (notNull : (Expr.isNull column true).evaluateOver row = .true) :
    row.Present column := by
  rw [Expr.evaluateOver, Truth.from_eq_true_iff] at notNull
  cases found : row column with
  | none => simp [found] at notNull
  | some actual => exact ⟨actual, found, by simpa [found] using notNull⟩

theorem evaluateOver_isNull_of_present
    (present : row.Present column) (negated : Bool) :
    (Expr.isNull column negated).evaluateOver row = Truth.from negated := by
  obtain ⟨actual, found, notNull⟩ := present
  simp [Expr.evaluateOver, found, notNull]

theorem present_of_excludesNulls
    {query : Expr}
    (excludes : excludesNulls query column = true)
    (holds : query.evaluateOver row = .true) :
    row.Present column := by
  rw [excludesNulls.eq_def] at excludes
  split at excludes
  · obtain rfl := beq_iff_eq.mp excludes
    exact present_of_isNull holds
  · obtain rfl := beq_iff_eq.mp excludes
    apply present_of_isNull
    rw [Expr.evaluateOver, Truth.negate_eq_true_iff, Expr.evaluateOver,
      Truth.from_eq_false_iff] at holds
    simpa [Expr.evaluateOver] using holds
  · next inner =>
      refine present_of_unknownOnNull excludes (fun unknown => ?_)
      rw [Expr.evaluateOver, unknown] at holds
      cases holds
  · refine present_of_unknownOnNull excludes (fun unknown => ?_)
    rw [unknown] at holds
    cases holds

theorem evaluateOver_of_notNullGoal
    {goal : Expr}
    (isGoal : notNullGoal goal = some column)
    (present : row.Present column) :
    goal.evaluateOver row = .true := by
  rw [notNullGoal.eq_def] at isGoal
  split at isGoal
  · cases isGoal
    exact evaluateOver_isNull_of_present present true
  · cases isGoal
    rw [Expr.evaluateOver, evaluateOver_isNull_of_present present false]
    rfl
  · cases isGoal

theorem evaluateOver_of_leafImplies
    {query goal : Expr}
    (implied : leafImplies query goal = true)
    (holds : query.evaluateOver row = .true) :
    goal.evaluateOver row = .true := by
  rw [leafImplies.eq_def] at implied
  split at implied
  · next column isGoal =>
      exact evaluateOver_of_notNullGoal isGoal (present_of_excludesNulls implied holds)
  · split at implied
    · next column op goalValue on held value =>
        simp only [Bool.and_eq_true, Bool.not_eq_true', beq_iff_eq] at implied
        obtain ⟨⟨⟨notNull, rfl⟩, -⟩, compares⟩ := implied
        obtain ⟨actual, found, present, -, applies⟩ :=
          evaluateCompare_eq_true_iff.mp holds
        exact evaluateCompare_eq_true_iff.mpr ⟨actual, found, present,
          notNull, apply_of_comparisonImplies compares applies⟩
    · next column op goalValue on values _ =>
        simp only [Bool.and_eq_true, Bool.not_eq_true', beq_iff_eq,
          all_eq_true] at implied
        obtain ⟨⟨⟨notNull, rfl⟩, -⟩, each⟩ := implied
        obtain ⟨actual, found, present, value, member, -, equal⟩ :=
          evaluateIn_eq_true_iff.mp holds
        refine evaluateCompare_eq_true_iff.mpr ⟨actual, found, present, notNull, ?_⟩
        rw [← (cmp_respects_left goalValue).eq equal]
        exact (each value member).2
    · cases implied

/-! ## Predicates -/

/-- Whatever one rule calls implied is true wherever the query is. -/
theorem evaluateOver_of_impliesOne
    (query goal : Expr)
    (implied : impliesOne query goal = true)
    (holds : query.evaluateOver row = .true) :
    goal.evaluateOver row = .true := by
  -- The rules take the query or the goal apart, one of them at a time.
  induction size : sizeOf query + sizeOf goal
    using Nat.strong_induction_on generalizing query goal with
  | _ size ih =>
      subst size
      rw [impliesOne.eq_def, Bool.or_eq_true, Bool.or_eq_true,
        Bool.or_eq_true] at implied
      rcases implied with ((same | trivially) | byGoal) | byQuery
      · rw [← Expr.evaluateOver_of_same query goal same, holds]
      · rw [Expr.evaluateOver_of_same goal .true trivially]
        rfl
      · split at byGoal
        · next branches =>
            obtain ⟨⟨branch, member⟩, -, impliesBranch⟩ := any_eq_true.mp byGoal
            have smaller := sizeOf_lt_of_mem member
            have branchHolds := ih _
              (by simp only [Expr.or.sizeOf_spec]; omega) query branch
              impliesBranch holds rfl
            rw [Expr.evaluateOver, Expr.evaluateOr_eq_true_iff _ (by decide)]
            exact ⟨branch, member, branchHolds⟩
        · cases byGoal
      · split at byQuery
        · cases holds
        · next parts =>
            obtain ⟨⟨conjunct, member⟩, -, impliesGoal⟩ := any_eq_true.mp byQuery
            have smaller := Expr.sizeOf_conjunctsList parts conjunct member
            rw [Expr.evaluateOver_eq_true_iff] at holds
            exact ih _ (by simp only [Expr.and.sizeOf_spec]; omega) conjunct goal
              impliesGoal (holds conjunct member) rfl
        · next branches =>
            rw [Bool.and_eq_true, all_eq_true] at byQuery
            rw [Expr.evaluateOver, Expr.evaluateOr_eq_true_iff _ (by decide)] at holds
            obtain ⟨branch, member, branchHolds⟩ := holds
            have smaller := sizeOf_lt_of_mem member
            exact ih _ (by simp only [Expr.or.sizeOf_spec]; omega) branch goal
              (byQuery.2 ⟨branch, member⟩ (mem_attach _ _))
              branchHolds rfl
        · exact evaluateOver_of_leafImplies byQuery holds

omit [Platform] in
theorem implies_of_mem
    {parts : List Expr} {part : Expr}
    (member : part ∈ parts) :
    implies (.and parts) part = true := by
  rw [implies, all_eq_true]
  intro conjunct isConjunct
  have inParts : conjunct ∈ Expr.conjunctsList parts := by
    induction parts with
    | nil => cases member
    | cons first rest ih =>
        rw [Expr.conjunctsList, mem_append]
        rcases mem_cons.mp member with rfl | inRest
        · exact Or.inl isConjunct
        · exact Or.inr (ih inRest)
  rw [impliesOne.eq_def, Bool.or_eq_true]
  refine Or.inr (any_eq_true.mpr ⟨⟨conjunct, inParts⟩, mem_attach _ _, ?_⟩)
  rw [impliesOne.eq_def]
  dsimp only
  rw [Expr.same_refl]
  rfl

theorem evaluateOver_of_implies
    {query index : Expr}
    (implied : implies query index = true)
    (holds : query.evaluateOver row = .true) :
    index.evaluateOver row = .true := by
  rw [Expr.evaluateOver_eq_true_iff]
  intro conjunct member
  exact evaluateOver_of_impliesOne query conjunct
    (all_eq_true.mp implied conjunct member) holds

/-- A predicate that is true of no row that another is not true of. -/
def Expr.Entails (query index : Expr) : Prop :=
  ∀ row : Row, query.evaluate row = .true → index.evaluate row = .true

/-- What the planner calls implied is entailed. -/
theorem entails_of_implies
    {query index : Expr}
    (implied : implies query index = true) :
    query.Entails index := by
  intro row holds
  rw [Expr.evaluate] at holds ⊢
  exact evaluateOver_of_implies implied holds

end

/-- What is above five in either of two columns is above three there. -/
theorem entails_atLeast :
    let _ : Platform := asciiPlatform
    Expr.Entails (.or [.compare 0 .gt (.i64 5), .in 1 [.i64 4, .u64 9]])
      (.or [.compare 0 .ge (.i64 3), .not (.isNull 1 false)]) := by
  intro _
  exact entails_of_implies (by decide +kernel)

end SlateOrm
