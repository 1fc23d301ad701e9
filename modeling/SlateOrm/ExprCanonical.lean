import SlateOrm.Scalar
import SlateOrm.TupleRoundTrip

namespace SlateOrm

open List

/-!
# Evaluation respects equality of values

A stored row comes back with its values in canonical form.  Predicates and
computed values cannot tell: rows whose values are equal column by column have
the same truths, and equal computed values.
-/

/-- Columns that hold equal values wherever they hold one. -/
def SameColumns (first second : Columns) : Prop := ∀ ordinal,
    (first ordinal).map Value.canonical = (second ordinal).map Value.canonical

/-- A function that does not see more of a value than its canonical form. -/
def Respects {α : Type} (function : Value → α) : Prop :=
  ∀ value, function value.canonical = function value

variable {α : Type}

namespace Respects

theorem eq
    {function : Value → α} (respects : Respects function) {first second : Value}
    (same : first.canonical = second.canonical) :
    function first = function second := by
  rw [← respects first, same, respects second]

theorem eq_both
    {function : Value → Value → α}
    (left : ∀ other, Respects (fun value => function value other))
    (right : ∀ other, Respects (function other))
    {first second first' second' : Value}
    (same : first.canonical = first'.canonical)
    (same' : second.canonical = second'.canonical) :
    function first second = function first' second' :=
  ((left second).eq same).trans ((right first').eq same')

end Respects

theorem respects_of_signed
    {function : Value → α}
    (others : ∀ value, (∀ number, value ≠ .u64 number) →
      function value.canonical = function value)
    (signed : ∀ (unsigned : UInt64) (signed : Int64), signed.toInt = unsigned.toNat →
      function (.i64 signed) = function (.u64 unsigned)) :
    Respects function := by
  intro value
  cases value with
  | u64 value =>
      rcases Value.ofI128_toNat value with ⟨number, same, equal⟩ | ⟨same, -⟩
      · rw [Value.canonical_u64, same]
        exact signed value number equal
      · rw [Value.canonical_u64, same]
  | _ => exact others _ (fun _ same => nomatch same)

/-! ## Predicates -/

theorem SameColumns.cases
    {first second : Columns} (same : SameColumns first second)
    (ordinal : Ordinal) :
    (first ordinal = none ∧ second ordinal = none) ∨ ∃ value value',
        first ordinal = some value ∧ second ordinal = some value' ∧
        value.canonical = value'.canonical := by
  have here := same ordinal
  cases left : first ordinal with
  | none =>
      cases right : second ordinal with
      | none => exact .inl ⟨rfl, rfl⟩
      | some value => simp [left, right] at here
  | some value =>
      cases right : second ordinal with
      | none => simp [left, right] at here
      | some value' =>
          refine .inr ⟨value, value', rfl, rfl, ?_⟩
          simpa [left, right] using here

theorem isNull_respects : Respects Value.isNull :=
  Value.isNull_canonical

theorem cmp_respects_left
    (other : Value) :
    Respects (fun value => Value.cmp value other) :=
  fun value => Value.cmp_canonical_left value other

theorem cmp_respects_right
    (other : Value) :
    Respects (Value.cmp other) :=
  fun value => Value.cmp_canonical_right value other

theorem text_respects
    (function : String → α) (otherwise : α) :
    Respects (fun value =>
      match value with
      | .str text => function text
      | _ => otherwise) := by
  refine respects_of_signed ?_ (fun _ _ _ => rfl)
  intro value notUnsigned
  cases value with
  | u64 value => exact absurd rfl (notUnsigned value)
  | _ => rfl

section

variable {row row' : Columns}

theorem evaluateCompare_congr
    (same : SameColumns row row') (column : Ordinal) (op : CmpOp)
    (value : Value) :
    evaluateCompare row column op value = evaluateCompare row' column op value := by
  unfold evaluateCompare
  rcases same.cases column with ⟨left, right⟩ | ⟨first, second, left, right, equal⟩
  · rw [left, right]
  · rw [left, right]
    dsimp only
    rw [isNull_respects.eq equal, (cmp_respects_left value).eq equal]

theorem evaluateCompareColumns_congr
    (same : SameColumns row row') (column : Ordinal) (op : CmpOp)
    (column' : Ordinal) :
    evaluateCompareColumns row column op column' =
      evaluateCompareColumns row' column op column' := by
  unfold evaluateCompareColumns
  rcases same.cases column with ⟨left, right⟩ | ⟨first, second, left, right, equal⟩
  · rw [left, right]
  · rcases same.cases column' with
      ⟨left', right'⟩ | ⟨first', second', left', right', equal'⟩
    · rw [left, right, left', right']
    · rw [left, right, left', right']
      dsimp only
      rw [isNull_respects.eq equal, isNull_respects.eq equal',
        Respects.eq_both cmp_respects_left cmp_respects_right equal equal']

theorem text_congr
    (same : SameColumns row row') (column : Ordinal) (function : String → α)
    (otherwise : α) :
    (match row column with
      | some (.str text) => function text
      | _ => otherwise) =
      match row' column with
      | some (.str text) => function text
      | _ => otherwise := by
  rcases same.cases column with ⟨left, right⟩ | ⟨first, second, left, right, equal⟩
  · rw [left, right]
  · rw [left, right]
    have texts := (text_respects function otherwise).eq equal
    cases first <;> cases second <;> exact texts

theorem evaluateIn_congr
    (same : SameColumns row row') (column : Ordinal) (values : List Value) :
    evaluateIn row column values = evaluateIn row' column values := by
  unfold evaluateIn
  rcases same.cases column with ⟨left, right⟩ | ⟨first, second, left, right, equal⟩
  · rw [left, right]
  · have found : ∀ value : Value, (value == first) = (value == second) :=
      fun value => by
        simp only [BEq.beq, (cmp_respects_right value).eq equal]
    rw [left, right]
    dsimp only
    simp only [isNull_respects.eq equal, found]

theorem evaluateInSorted_congr
    (same : SameColumns row row') (column : Ordinal) (values : List Value)
    (anyNull : Bool) :
    evaluateInSorted row column values anyNull =
      evaluateInSorted row' column values anyNull := by
  unfold evaluateInSorted
  rcases same.cases column with ⟨left, right⟩ | ⟨first, second, left, right, equal⟩
  · rw [left, right]
  · have probes : (fun value : Value => value.cmp first) =
        (fun value : Value => value.cmp second) :=
      funext fun value => (cmp_respects_right value).eq equal
    rw [left, right]
    dsimp only
    rw [isNull_respects.eq equal, probes]

theorem evaluateIsNull_congr
    (same : SameColumns row row') (column : Ordinal) :
    (row column).all Value.isNull = (row' column).all Value.isNull := by
  rcases same.cases column with ⟨left, right⟩ | ⟨first, second, left, right, equal⟩
  · rw [left, right]
  · rw [left, right]
    simp [isNull_respects.eq equal]

variable [Platform]

theorem evaluateLike_congr
    (same : SameColumns row row') (column : Ordinal) (pattern : String)
    (negated insensitive : Bool) :
    evaluateLike row column pattern negated insensitive =
      evaluateLike row' column pattern negated insensitive :=
  text_congr same column _ _

theorem evaluateMatches_congr
    (same : SameColumns row row') (column : Ordinal) (pattern : String)
    (negated insensitive : Bool) :
    evaluateMatches row column pattern negated insensitive =
      evaluateMatches row' column pattern negated insensitive :=
  text_congr same column _ _

theorem evaluateContains_congr
    (same : SameColumns row row') (column : Ordinal) (terms : List String) :
    evaluateContains row column terms = evaluateContains row' column terms :=
  text_congr same column _ _

theorem Expr.evaluateAnd_of_map
    {parts parts' : List Expr}
    (same : parts.map (Expr.evaluateOver row) = parts'.map (Expr.evaluateOver row'))
    (result : Truth) :
    Expr.evaluateAnd row result parts = Expr.evaluateAnd row' result parts' := by
  induction parts generalizing parts' result with
  | nil =>
      rw [map_eq_nil_iff.mp same.symm]
      rfl
  | cons part rest ih =>
      cases parts' with
      | nil => cases same
      | cons part' rest' =>
          obtain ⟨samePart, sameRest⟩ := cons.inj same
          rw [Expr.evaluateAnd, Expr.evaluateAnd, samePart, ih sameRest, ih sameRest]

theorem Expr.evaluateOr_of_map
    {parts parts' : List Expr}
    (same : parts.map (Expr.evaluateOver row) = parts'.map (Expr.evaluateOver row'))
    (result : Truth) :
    Expr.evaluateOr row result parts = Expr.evaluateOr row' result parts' := by
  induction parts generalizing parts' result with
  | nil =>
      rw [map_eq_nil_iff.mp same.symm]
      rfl
  | cons part rest ih =>
      cases parts' with
      | nil => cases same
      | cons part' rest' =>
          obtain ⟨samePart, sameRest⟩ := cons.inj same
          rw [Expr.evaluateOr, Expr.evaluateOr, samePart, ih sameRest, ih sameRest]

mutual

theorem Expr.evaluateOver_congr
    (same : SameColumns row row') :
    ∀ predicate : Expr, predicate.evaluateOver row = predicate.evaluateOver row'
  | .true => rfl
  | .false => rfl
  | .compare column op value => evaluateCompare_congr same column op value
  | .compareColumns left op right => evaluateCompareColumns_congr same left op right
  | .isNull column negated => by
      rw [Expr.evaluateOver, Expr.evaluateOver, evaluateIsNull_congr same column]
  | .like column pattern negated insensitive =>
      evaluateLike_congr same column pattern negated insensitive
  | .matches column pattern negated insensitive =>
      evaluateMatches_congr same column pattern negated insensitive
  | .contains column terms => evaluateContains_congr same column terms
  | .in column values => evaluateIn_congr same column values
  | .inSorted column values anyNull => evaluateInSorted_congr same column values anyNull
  | .and parts => Expr.evaluateAnd_of_map (Expr.evaluateList_congr same parts) _
  | .or parts => Expr.evaluateOr_of_map (Expr.evaluateList_congr same parts) _
  | .not inner => by
      rw [Expr.evaluateOver, Expr.evaluateOver, Expr.evaluateOver_congr same inner]

theorem Expr.evaluateList_congr
    (same : SameColumns row row') :
    ∀ parts : List Expr,
      parts.map (Expr.evaluateOver row) = parts.map (Expr.evaluateOver row')
  | [] => rfl
  | part :: rest =>
      congrArg₂ cons (Expr.evaluateOver_congr same part)
        (Expr.evaluateList_congr same rest)

end

/-! ## Columns that are read -/

mutual

theorem Expr.evaluateOver_of_columns :
    ∀ predicate : Expr, (∀ column ∈ predicate.columns, row column = row' column) →
        predicate.evaluateOver row = predicate.evaluateOver row'
  | .true, _ => rfl
  | .false, _ => rfl
  | .compare column op value, agree => by
      have here := agree column (mem_singleton.mpr rfl)
      simp only [Expr.evaluateOver, evaluateCompare, here]
  | .compareColumns left op right, agree => by
      have first := agree left (mem_cons_self ..)
      have second := agree right (mem_cons_of_mem _ (mem_singleton.mpr rfl))
      simp only [Expr.evaluateOver, evaluateCompareColumns, first, second]
  | .isNull column _, agree
  | .like column _ _ _, agree
  | .matches column _ _ _, agree
  | .contains column _, agree
  | .in column _, agree
  | .inSorted column _ _, agree => by
      have here := agree column (mem_singleton.mpr rfl)
      simp only [Expr.evaluateOver, evaluateLike, evaluateMatches,
        evaluateContains, evaluateIn, evaluateInSorted, here]
  | .and parts, agree =>
      Expr.evaluateAnd_of_map (Expr.evaluateList_of_columns parts agree) _
  | .or parts, agree =>
      Expr.evaluateOr_of_map (Expr.evaluateList_of_columns parts agree) _
  | .not inner, agree => by
      rw [Expr.evaluateOver, Expr.evaluateOver,
        Expr.evaluateOver_of_columns inner agree]

theorem Expr.evaluateList_of_columns :
    ∀ parts : List Expr, (∀ column ∈ Expr.columnsList parts, row column = row' column) →
        parts.map (Expr.evaluateOver row) = parts.map (Expr.evaluateOver row')
  | [], _ => rfl
  | part :: rest, agree =>
      congrArg₂ cons (Expr.evaluateOver_of_columns part (fun column member =>
          agree column (mem_append_left _ member)))
        (Expr.evaluateList_of_columns rest (fun column member =>
          agree column (mem_append_right _ member)))

end

end

/-! ## Computed values -/

/-- A number without its NaN payload. -/
def Number.canonical : Number → Number
  | .int value => .int value
  | .real value => .real (F64.canonical value)
  | .units value => .units value

theorem number_canonical
    (value : Value) :
    number value.canonical = (number value).map Number.canonical := by
  cases value with
  | u64 value =>
      rcases Value.ofI128_toNat value with
        ⟨signed, same, equal⟩ | ⟨same, large⟩
      · rw [Value.canonical_u64, same, number, number, ← equal,
          TupleReader.tryI64_toInt]
        rfl
      · have tooLarge : TupleReader.tryI64 value.toNat = none := by
          rw [TupleReader.tryI64, if_neg (fun bound => by omega)]
        rw [Value.canonical_u64, same, number, tooLarge]
        rfl
  | _ => rfl

theorem F64.isZero_canonical
    (value : F64) :
    F64.isZero value.canonical = F64.isZero value := by
  cases unordered : F64.isNan value with
  | false => rw [F64.canonical_of_number unordered]
  | true =>
      have notZero : F64.isZero value = false := by
        by_contra zero
        rw [Bool.not_eq_false, F64.isZero, beq_iff_eq] at zero
        rw [F64.isNan, zero] at unordered
        exact absurd unordered (by decide)
      rw [F64.canonical, unordered, if_pos rfl, notZero]
      decide

theorem Op.real_canonical
    (op : Op) (first second : F64) :
    op.real first.canonical second.canonical = op.real first second := by
  cases op with
  | add => exact F64.add_absorbs.canonical first second
  | sub => exact F64.sub_absorbs.canonical first second
  | mul => exact F64.mul_absorbs.canonical first second
  | div =>
      simp only [Op.real, F64.isZero_canonical, F64.div_absorbs.canonical first second]

theorem decimalOp_canonical
    (op : Op) (first second : Number) :
    decimalOp op first.canonical second.canonical = decimalOp op first second := by
  cases op <;> cases first <;> cases second <;> rfl

theorem Op.real_congr
    (op : Op) {first second first' second' : F64}
    (same : first.canonical = first'.canonical)
    (same' : second.canonical = second'.canonical) :
    op.real first second = op.real first' second' := by
  rw [← op.real_canonical first, same, same', op.real_canonical]

theorem arithmeticOf_canonical
    (op : Op) (first second : Number) :
    arithmeticOf op first.canonical second.canonical =
      arithmeticOf op first second := by
  have real : ∀ x x' y y' : F64,
      x.canonical = x'.canonical → y.canonical = y'.canonical →
      Value.f64 (op.real x y) = Value.f64 (op.real x' y') :=
    fun _ _ _ _ same same' => congrArg Value.f64 (op.real_congr same same')
  cases first with
  | int x =>
      cases second with
      | int y => rfl
      | real y => exact real _ _ _ _ rfl (F64.canonical_canonical y)
      | units y => rfl
  | real x =>
      cases second with
      | int y => exact real _ _ _ _ (F64.canonical_canonical x) rfl
      | real y =>
          exact real _ _ _ _ (F64.canonical_canonical x) (F64.canonical_canonical y)
      | units y => exact decimalOp_canonical op (.real x) (.units y)
  | units x => exact decimalOp_canonical op (.units x) second

theorem arithmetic_canonical
    (op : Op) (first second : Value) :
    arithmetic op first.canonical second.canonical = arithmetic op first second := by
  unfold arithmetic
  rw [number_canonical, number_canonical]
  cases number first with
  | none => rfl
  | some x =>
      cases number second with
      | none => rfl
      | some y => exact arithmeticOf_canonical op x y

theorem arithmetic_congr
    (op : Op) {first second first' second' : Value}
    (same : first.canonical = first'.canonical)
    (same' : second.canonical = second'.canonical) :
    arithmetic op first second = arithmetic op first' second' := by
  rw [← arithmetic_canonical, same, same', arithmetic_canonical]

theorem ofSeconds_respects
    (function : Int64 → Value) :
    Respects (ofSeconds function) := by
  intro value
  unfold ofSeconds
  rw [number_canonical]
  cases number value with
  | none => rfl
  | some number => cases number <;> rfl

theorem lengthOf_respects : Respects lengthOf := by
  refine respects_of_signed ?_ (fun _ _ _ => rfl)
  intro value notUnsigned
  cases value with
  | u64 value => exact absurd rfl (notUnsigned value)
  | _ => rfl

theorem roundReal_canonical
    (value : F64) :
    roundReal value.canonical = roundReal value := by
  cases unordered : F64.isNan value with
  | true =>
      rw [roundReal, roundReal, F64.isNan_canonical, unordered, if_pos rfl, if_pos rfl]
  | false => rw [F64.canonical_of_number unordered]

theorem roundOf_respects : Respects roundOf := by
  intro value
  unfold roundOf
  rw [number_canonical]
  cases number value with
  | none => rfl
  | some number =>
      cases number with
      | int value
      | units value => rfl
      | real value => exact roundReal_canonical value

theorem zipWith_ofF32_canonical
    (function : F64 → F64 → α) (first second : List F32) :
    (first.map F32.canonical).zipWith (fun x y => function (F64.ofF32 x) (F64.ofF32 y))
        (second.map F32.canonical) =
      first.zipWith (fun x y => function (F64.ofF32 x) (F64.ofF32 y)) second := by
  rw [zipWith_map]
  simp only [F64.ofF32_canonical]

theorem Metric.between_canonical
    (metric : Metric) (first second : List F32) :
    metric.between (first.map F32.canonical) (second.map F32.canonical) =
      metric.between first second := by
  have squares : squaredDifferences (first.map F32.canonical)
      (second.map F32.canonical) = squaredDifferences first second :=
    zipWith_ofF32_canonical
      (fun x y => F64.mul (F64.sub x y) (F64.sub x y)) first second
  have products := zipWith_ofF32_canonical F64.mul first second
  have sums : cosineSums (first.map F32.canonical)
      (second.map F32.canonical) = cosineSums first second := by
    rw [cosineSums, zip_map, foldl_map]
    simp only [Prod.map_fst, Prod.map_snd, F64.ofF32_canonical]
    rfl
  unfold Metric.between
  rw [length_map, length_map, squares, products, sums]

/-- The vector a value is, if it is one. -/
def Value.asVector : Value → Option (List F32)
  | .vector elements => some elements
  | _ => none

theorem asVector_canonical
    (value : Value) :
    value.canonical.asVector = value.asVector.map (map F32.canonical) := by
  cases value with
  | u64 value =>
      rcases Value.ofI128_toNat value with ⟨signed, same, -⟩ | ⟨same, -⟩
      · rw [Value.canonical_u64, same]
        rfl
      · rw [Value.canonical_u64, same]
        rfl
  | _ => rfl

theorem distanceOf_eq
    (metric : Metric) (first second : Value) :
    distanceOf metric first second =
      match first.asVector, second.asVector with
      | some x, some y => ((metric.between x y).map .f64).getD .null
      | _, _ => .null := by
  cases first <;> cases second <;> rfl

theorem distanceOf_canonical
    (metric : Metric) (first second : Value) :
    distanceOf metric first.canonical second.canonical =
      distanceOf metric first second := by
  rw [distanceOf_eq, distanceOf_eq, asVector_canonical, asVector_canonical]
  cases first.asVector with
  | none => rfl
  | some x =>
      cases second.asVector with
      | none => rfl
      | some y => simp only [Option.map, metric.between_canonical]

section

variable [Platform]

theorem lowerOf_respects : Respects lowerOf := by
  refine respects_of_signed ?_ (fun _ _ _ => rfl)
  intro value notUnsigned
  cases value with
  | u64 value => exact absurd rfl (notUnsigned value)
  | _ => rfl

theorem upperOf_respects : Respects upperOf := by
  refine respects_of_signed ?_ (fun _ _ _ => rfl)
  intro value notUnsigned
  cases value with
  | u64 value => exact absurd rfl (notUnsigned value)
  | _ => rfl

theorem regexpReplaceOf_respects
    (pattern replacement : String) :
    Respects (regexpReplaceOf pattern replacement) := by
  refine respects_of_signed ?_ (fun _ _ _ => rfl)
  intro value notUnsigned
  cases value with
  | u64 value => exact absurd rfl (notUnsigned value)
  | _ => rfl

theorem concatText_respects : Respects concatText := by
  refine respects_of_signed ?_ ?_
  · intro value notUnsigned
    cases value with
    | u64 value => exact absurd rfl (notUnsigned value)
    | f64 value =>
        simp only [Value.canonical, concatText, f64Text, F64.isNan_canonical]
        cases unordered : F64.isNan value with
        | true => rfl
        | false => rw [F64.canonical_of_number unordered]
    | _ => rfl
  · intro unsigned signed equal
    rw [concatText, concatText, equal]
    rfl

variable {row row' : Columns}

/-- Equal values, which are of one type where the columns are. -/
def Value.Alike (typed : Prop) (first second : Value) : Prop :=
  first.canonical = second.canonical ∧ (typed → first.valueType = second.valueType)

omit [Platform] in
theorem Value.Alike.of_eq
    {typed : Prop} {first second : Value}
    (same : first = second) :
    Value.Alike typed first second :=
  ⟨congrArg Value.canonical same, fun _ => congrArg Value.valueType same⟩

mutual

/-- Rows with equal values have equal computed values. -/
theorem Scalar.evaluate_alike
    (same : SameColumns row row') :
    ∀ scalar : Scalar, Value.Alike (∀ ordinal, (row ordinal).map Value.valueType =
          (row' ordinal).map Value.valueType)
        (scalar.evaluate row) (scalar.evaluate row')
  | .column ordinal => by
      rw [Scalar.evaluate, Scalar.evaluate]
      rcases same.cases ordinal with
        ⟨left, right⟩ | ⟨first, second, left, right, equal⟩
      · exact .of_eq (by rw [left, right])
      · rw [left, right]
        refine ⟨equal, fun types => ?_⟩
        simpa [left, right] using types ordinal
  | .literal _ => .of_eq rfl
  | .add left right
  | .sub left right
  | .mul left right
  | .div left right => .of_eq (by
      rw [Scalar.evaluate, Scalar.evaluate, arithmetic_congr _
        (Scalar.evaluate_alike same left).1 (Scalar.evaluate_alike same right).1])
  | .length inner => .of_eq (by
      rw [Scalar.evaluate, Scalar.evaluate,
        lengthOf_respects.eq (Scalar.evaluate_alike same inner).1])
  | .concat parts => .of_eq (by
      rw [Scalar.evaluate, Scalar.evaluate, Scalar.evaluateConcat_congr same parts ""])
  | .lower inner => .of_eq (by
      rw [Scalar.evaluate, Scalar.evaluate,
        lowerOf_respects.eq (Scalar.evaluate_alike same inner).1])
  | .upper inner => .of_eq (by
      rw [Scalar.evaluate, Scalar.evaluate,
        upperOf_respects.eq (Scalar.evaluate_alike same inner).1])
  | .extract _ value
  | .calendarPart _ value
  | .calendarTrunc _ value
  | .zoneShift _ value
  | .dateTrunc _ value => .of_eq (by
      rw [Scalar.evaluate, Scalar.evaluate,
        (ofSeconds_respects _).eq (Scalar.evaluate_alike same value).1])
  | .round value => .of_eq (by
      rw [Scalar.evaluate, Scalar.evaluate,
        roundOf_respects.eq (Scalar.evaluate_alike same value).1])
  | .case branches otherwise => by
      rw [Scalar.evaluate, Scalar.evaluate]
      rcases Scalar.evaluateCase_alike same branches with
        ⟨first, second⟩ | ⟨value, value', first, second, alike⟩
      · rw [first, second]
        exact Scalar.evaluate_alike same otherwise
      · rw [first, second]
        exact alike
  | .coalesce parts => by
      rw [Scalar.evaluate, Scalar.evaluate]
      exact Scalar.evaluateCoalesce_alike same parts
  | .distance left right metric => .of_eq (by
      rw [Scalar.evaluate, Scalar.evaluate, ← distanceOf_canonical,
        (Scalar.evaluate_alike same left).1,
        (Scalar.evaluate_alike same right).1, distanceOf_canonical])
  | .regexpReplace value pattern replacement => .of_eq (by
      rw [Scalar.evaluate, Scalar.evaluate, (regexpReplaceOf_respects pattern
        replacement).eq (Scalar.evaluate_alike same value).1])

theorem Scalar.evaluateConcat_congr
    (same : SameColumns row row') :
    ∀ (parts : List Scalar) (out : String),
      Scalar.evaluateConcat row out parts = Scalar.evaluateConcat row' out parts
  | [], _ => rfl
  | part :: rest, out => by
      rw [Scalar.evaluateConcat, Scalar.evaluateConcat,
        concatText_respects.eq (Scalar.evaluate_alike same part).1]
      cases concatText (part.evaluate row') with
      | none => rfl
      | some text => exact Scalar.evaluateConcat_congr same rest (out ++ text)

theorem Scalar.evaluateCase_alike
    (same : SameColumns row row') :
    ∀ branches : List (Expr × Scalar), (Scalar.evaluateCase row branches = none ∧
        Scalar.evaluateCase row' branches = none) ∨
      ∃ value value', Scalar.evaluateCase row branches = some value ∧
        Scalar.evaluateCase row' branches = some value' ∧
        Value.Alike (∀ ordinal, (row ordinal).map Value.valueType =
          (row' ordinal).map Value.valueType) value value'
  | [] => .inl ⟨rfl, rfl⟩
  | (condition, result) :: rest => by
      rw [Scalar.evaluateCase, Scalar.evaluateCase, Expr.admitsOver,
        Expr.admitsOver, Expr.evaluateOver_congr same condition]
      split
      · exact .inr ⟨_, _, rfl, rfl, Scalar.evaluate_alike same result⟩
      · exact Scalar.evaluateCase_alike same rest

theorem Scalar.evaluateCoalesce_alike
    (same : SameColumns row row') :
    ∀ parts : List Scalar, Value.Alike (∀ ordinal, (row ordinal).map Value.valueType =
          (row' ordinal).map Value.valueType)
        (Scalar.evaluateCoalesce row parts)
        (Scalar.evaluateCoalesce row' parts)
  | [] => .of_eq rfl
  | part :: rest => by
      rw [Scalar.evaluateCoalesce, Scalar.evaluateCoalesce,
        isNull_respects.eq (Scalar.evaluate_alike same part).1]
      split
      · exact Scalar.evaluateCoalesce_alike same rest
      · exact Scalar.evaluate_alike same part

end

theorem Scalar.evaluate_congr
    (same : SameColumns row row') (scalar : Scalar) :
    (scalar.evaluate row).canonical = (scalar.evaluate row').canonical :=
  (Scalar.evaluate_alike same scalar).1

mutual

/-- A scalar tells rows apart by the columns it reads alone. -/
theorem Scalar.evaluate_of_columns :
    ∀ scalar : Scalar, (∀ column ∈ scalar.columns, row column = row' column) →
        scalar.evaluate row = scalar.evaluate row'
  | .column ordinal, agree => by
      rw [Scalar.evaluate, Scalar.evaluate, agree ordinal (mem_singleton.mpr rfl)]
  | .literal _, _ => rfl
  | .add left right, agree
  | .sub left right, agree
  | .mul left right, agree
  | .div left right, agree
  | .distance left right _, agree => by
      rw [Scalar.evaluate, Scalar.evaluate, Scalar.evaluate_of_columns left
        (fun column member => agree column (mem_append_left _ member)),
        Scalar.evaluate_of_columns right (fun column member => agree column
        (mem_append_right _ member))]
  | .length inner, agree
  | .lower inner, agree
  | .upper inner, agree
  | .extract _ inner, agree
  | .round inner, agree
  | .calendarPart _ inner, agree
  | .calendarTrunc _ inner, agree
  | .zoneShift _ inner, agree
  | .dateTrunc _ inner, agree
  | .regexpReplace inner _ _, agree => by
      rw [Scalar.evaluate, Scalar.evaluate, Scalar.evaluate_of_columns inner agree]
  | .concat parts, agree => by
      rw [Scalar.evaluate, Scalar.evaluate,
        Scalar.evaluateConcat_of_columns parts agree ""]
  | .case branches otherwise, agree => by
      rw [Scalar.evaluate, Scalar.evaluate, Scalar.evaluateCase_of_columns
        branches (fun column member => agree column (mem_append_left _ member)),
        Scalar.evaluate_of_columns otherwise (fun column member => agree column
        (mem_append_right _ member))]
  | .coalesce parts, agree => by
      rw [Scalar.evaluate, Scalar.evaluate,
        Scalar.evaluateCoalesce_of_columns parts agree]

theorem Scalar.evaluateConcat_of_columns :
    ∀ parts : List Scalar,
      (∀ column ∈ Scalar.columnsList parts, row column = row' column) →
        ∀ out, Scalar.evaluateConcat row out parts =
          Scalar.evaluateConcat row' out parts
  | [], _, _ => rfl
  | part :: rest, agree, out => by
      rw [Scalar.evaluateConcat, Scalar.evaluateConcat, Scalar.evaluate_of_columns part
        (fun column member => agree column (mem_append_left _ member))]
      cases concatText (part.evaluate row') with
      | none => rfl
      | some text =>
          exact Scalar.evaluateConcat_of_columns rest (fun column member =>
            agree column (mem_append_right _ member)) (out ++ text)

theorem Scalar.evaluateCase_of_columns :
    ∀ branches : List (Expr × Scalar),
      (∀ column ∈ Scalar.columnsBranches branches, row column = row' column) →
        Scalar.evaluateCase row branches = Scalar.evaluateCase row' branches
  | [], _ => rfl
  | (condition, result) :: rest, agree => by
      have agreeFirst : ∀ column ∈ condition.columns ++ result.columns,
          row column = row' column :=
        fun column member => agree column (mem_append_left _ member)
      rw [Scalar.evaluateCase, Scalar.evaluateCase, Expr.admitsOver,
        Expr.admitsOver, Expr.evaluateOver_of_columns condition
        (fun column member => agreeFirst column (mem_append_left _ member)),
        Scalar.evaluate_of_columns result (fun column member => agreeFirst
        column (mem_append_right _ member)), Scalar.evaluateCase_of_columns rest
        (fun column member => agree column (mem_append_right _ member))]

theorem Scalar.evaluateCoalesce_of_columns :
    ∀ parts : List Scalar,
      (∀ column ∈ Scalar.columnsList parts, row column = row' column) →
        Scalar.evaluateCoalesce row parts = Scalar.evaluateCoalesce row' parts
  | [], _ => rfl
  | part :: rest, agree => by
      rw [Scalar.evaluateCoalesce, Scalar.evaluateCoalesce,
        Scalar.evaluate_of_columns part (fun column member => agree column
        (mem_append_left _ member)), Scalar.evaluateCoalesce_of_columns rest
        (fun column member => agree column (mem_append_right _ member))]

end

/--
The columns a predicate or a scalar says it reads are all that it reads: it has
one result on any two rows that agree on them.
-/
theorem columns_complete
    (row row' : Columns) :
    (∀ predicate : Expr, (∀ column ∈ predicate.columns, row column = row' column) →
        predicate.evaluateOver row = predicate.evaluateOver row' ∧
          predicate.admitsOver row = predicate.admitsOver row') ∧
      ∀ scalar : Scalar, (∀ column ∈ scalar.columns, row column = row' column) →
          scalar.evaluate row = scalar.evaluate row' := by
  refine ⟨fun predicate agree => ?_, fun scalar agree =>
    Scalar.evaluate_of_columns scalar agree⟩
  have same := Expr.evaluateOver_of_columns predicate agree
  exact ⟨same, congrArg Truth.admits same⟩

end

/-- A case that reads the first of two columns. -/
theorem columns_complete_first :
    let _ : Platform := asciiPlatform
    (Scalar.case [(.isNull 0 false, .literal (.i64 1))] (.column 0)).evaluate
        (Row.mk [.null, .i64 2]).get =
      (Scalar.case [(.isNull 0 false, .literal (.i64 1))] (.column 0)).evaluate
        (Row.mk [.null]).get := by
  intro _
  refine (columns_complete _ _).2 _ (fun column isRead => ?_)
  rw [show column = 0 by simpa [Scalar.columns, Scalar.columnsBranches,
    Expr.columns] using isRead]
  rfl

end SlateOrm
