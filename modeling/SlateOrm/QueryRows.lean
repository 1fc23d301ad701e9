import SlateOrm.PlanBounds
import SlateOrm.StoredRows

namespace SlateOrm

open List

/-!
# What a query makes of a row

A query keeps a stored row if its filter admits the row with the computed
columns, and returns the columns it was asked for, null in place of the others.
Whether the row is decoded in one pass or in two, or under a primary key that
the filter names, makes no difference.
-/

/-! ## Prepared filters -/

/-- A sorted list is looked up as it stands, with a null if it had one. -/
theorem evaluateInSorted_eq
    {values : List Value} (sorted : StrictlySortedBy Value.cmp values)
    (present : ∀ value ∈ values, value.isNull = false)
    (row : Columns) (column : Ordinal) (anyNull : Bool) :
    evaluateInSorted row column values anyNull = evaluateIn row column
        (values ++ if anyNull then [Value.null] else []) := by
  rw [evaluateInSorted, evaluateIn]
  cases row column with
  | none => rfl
  | some actual =>
      dsimp only
      split
      · rfl
      · have bisects : Bisects (fun value => value.cmp actual) values := by
          refine sorted.imp (fun less => ⟨fun isGreater => ?_, fun isEqual => ?_⟩)
          · exact Std.OrientedCmp.gt_of_lt (Std.TransCmp.lt_trans
              (Std.OrientedCmp.lt_of_gt isGreater) less)
          · have greater := Std.TransCmp.lt_of_eq_of_lt
              (Std.OrientedCmp.eq_symm isEqual) less
            dsimp only
            rw [Std.OrientedCmp.gt_of_lt greater]
            exact Ordering.noConfusion
        have noNull : values.any Value.isNull = false := by
          simpa using present
        have found : (binarySearchBy (fun value => value.cmp actual) values).isOk =
            (values ++ if anyNull then [Value.null] else []).any
              (fun value => !value.isNull && value == actual) := by
          rw [Bool.eq_iff_iff, isOk_binarySearchBy bisects, any_eq_true]
          constructor
          · rintro ⟨value, member, isEqual⟩
            refine ⟨value, mem_append_left _ member, ?_⟩
            rw [present value member]
            exact (Value.beq_iff_canonical _ _).mpr
              ((Value.cmp_eq_iff_canonical _ _).mp isEqual)
          · rintro ⟨value, member, matched⟩
            rw [Bool.and_eq_true] at matched
            rcases mem_append.mp member with member | member
            · exact ⟨value, member, (Value.cmp_eq_iff_canonical _ _).mpr
                ((Value.beq_iff_canonical _ _).mp matched.2)⟩
            · split at member
              · obtain rfl := mem_singleton.mp member
                exact absurd matched.1 (by simp [Value.isNull])
              · cases member
        have nulls : (values ++ if anyNull then [Value.null] else []).any
            Value.isNull = anyNull := by
          rw [any_append, noNull]
          cases anyNull <;> rfl
        rw [← found, nulls]
        cases binarySearchBy (fun value => value.cmp actual) values with
        | ok place
        | error place => rfl

theorem sorted_dedup
    (values : List Value) :
    StrictlySortedBy Value.cmp
        (dedup ((values.filter (fun value => !value.isNull)).insertionSort
          (fun first second => first.cmp second ≠ .gt))) ∧
      ∀ value ∈ dedup ((values.filter (fun value => !value.isNull)).insertionSort
            (fun first second => first.cmp second ≠ .gt)),
        value.isNull = false := by
  constructor
  · refine strictlySortedBy_dedup (fun first second => ?_) (sortedBy_insertionSort _)
    rw [Value.beq_iff_canonical, Value.cmp_eq_iff_canonical]
  · intro value member
    have inSorted := mem_of_mem_dedup member
    rw [mem_insertionSort, mem_filter] at inSorted
    simpa using inSorted.2

/-- A long list of values is looked up as it stands. -/
theorem evaluateInSorted_dedup
    (row : Columns) (column : Ordinal) (values : List Value) :
    evaluateInSorted row column
        (dedup ((values.filter (fun value => !value.isNull)).insertionSort
          (fun first second => first.cmp second ≠ .gt)))
        (values.any Value.isNull) =
      evaluateIn row column values := by
  obtain ⟨isSorted, present⟩ := sorted_dedup values
  rw [evaluateInSorted_eq isSorted present, evaluateIn, evaluateIn]
  generalize isKept : (values.filter (fun value => !value.isNull)).insertionSort
    (fun first second => first.cmp second ≠ .gt) = sorted
  rw [isKept] at present
  cases row column with
  | none => rfl
  | some actual =>
      have matched (anyNull : Bool) : (dedup sorted ++
          if anyNull then [Value.null] else []).any
            (fun value => !value.isNull && value == actual) =
          values.any (fun value => !value.isNull && value == actual) := by
        rw [Bool.eq_iff_iff, any_eq_true, any_eq_true]
        constructor
        · rintro ⟨value, member, isMatch⟩
          rcases mem_append.mp member with member | member
          · have inSorted := mem_of_mem_dedup member
            rw [← isKept, mem_insertionSort, mem_filter] at inSorted
            exact ⟨value, inSorted.1, isMatch⟩
          · split at member
            · obtain rfl := mem_singleton.mp member
              exact absurd isMatch (by simp [Value.isNull])
            · cases member
        · rintro ⟨value, member, isMatch⟩
          rw [Bool.and_eq_true] at isMatch
          have inSorted : value ∈ sorted := by
            rw [← isKept, mem_insertionSort, mem_filter]
            exact ⟨member, isMatch.1⟩
          obtain ⟨other, isIn, equal⟩ := exists_mem_dedup inSorted
          refine ⟨other, mem_append_left _ isIn, ?_⟩
          rw [present other isIn]
          refine (Value.beq_iff_canonical _ _).mpr ?_
          rw [← (Value.beq_iff_canonical _ _).mp isMatch.2]
          rcases equal with rfl | equal
          · rfl
          · exact ((Value.beq_iff_canonical _ _).mp equal).symm
      have nulls (anyNull : Bool) : (dedup sorted ++
          if anyNull then [Value.null] else []).any Value.isNull =
            anyNull := by
        have noNull : (dedup sorted).any Value.isNull = false := by
          simpa using present
        rw [any_append, noNull]
        cases anyNull <;> rfl
      dsimp only
      rw [matched, nulls]

mutual

theorem Expr.columns_prepared :
    ∀ predicate : Expr, predicate.prepared.columns = predicate.columns
  | .in column values => by
      rw [Expr.prepared]
      split <;> rfl
  | .and parts
  | .or parts => by
      rw [Expr.prepared, Expr.columns, Expr.columns, Expr.columnsList_prepared parts]
  | .not inner => by
      rw [Expr.prepared, Expr.columns, Expr.columns, Expr.columns_prepared inner]
  | .true
  | .false
  | .compare ..
  | .compareColumns ..
  | .isNull ..
  | .like ..
  | .matches ..
  | .contains ..
  | .inSorted .. => rfl

theorem Expr.columnsList_prepared :
    ∀ parts : List Expr,
      Expr.columnsList (Expr.preparedList parts) = Expr.columnsList parts
  | [] => rfl
  | part :: rest => by
      rw [Expr.preparedList, Expr.columnsList, Expr.columnsList,
        Expr.columns_prepared part, Expr.columnsList_prepared rest]

end

section

variable [Platform]

mutual

theorem Expr.evaluateOver_prepared
    (row : Columns) :
    ∀ predicate : Expr, predicate.prepared.evaluateOver row = predicate.evaluateOver row
  | .in column values => by
      rw [Expr.prepared]
      split
      · exact evaluateInSorted_dedup row column values
      · rfl
  | .and parts => by
      rw [Expr.prepared, Expr.evaluateOver, Expr.evaluateOver,
        Expr.evaluateAnd_of_map (Expr.evaluateList_prepared row parts)]
  | .or parts => by
      rw [Expr.prepared, Expr.evaluateOver, Expr.evaluateOver,
        Expr.evaluateOr_of_map (Expr.evaluateList_prepared row parts)]
  | .not inner => by
      rw [Expr.prepared, Expr.evaluateOver, Expr.evaluateOver,
        Expr.evaluateOver_prepared row inner]
  | .true
  | .false
  | .compare ..
  | .compareColumns ..
  | .isNull ..
  | .like ..
  | .matches ..
  | .contains ..
  | .inSorted .. => rfl

theorem Expr.evaluateList_prepared
    (row : Columns) :
    ∀ parts : List Expr, (Expr.preparedList parts).map (Expr.evaluateOver row) =
        parts.map (Expr.evaluateOver row)
  | [] => rfl
  | part :: rest =>
      congrArg₂ cons (Expr.evaluateOver_prepared row part)
        (Expr.evaluateList_prepared row rest)

end

@[simp] theorem Expr.admits_prepared
    (predicate : Expr) (row : Row) :
    predicate.prepared.admits row = predicate.admits row := by
  rw [Expr.admits, Expr.admits, Expr.evaluate, Expr.evaluate,
    Expr.evaluateOver_prepared]

end

/-! ## Rows that agree -/

/-- Columns that hold equal values where they are read. -/
def AgreeOn (columns : List Ordinal) (first second : Columns) : Prop :=
  ∀ column ∈ columns,
    (first column).map Value.canonical = (second column).map Value.canonical

namespace AgreeOn

variable
  {columns : List Ordinal}
  {first second : Columns}

theorem exists_same
    (agree : AgreeOn columns first second) :
    ∃ third : Columns, SameColumns first third ∧
      ∀ column ∈ columns, third column = second column := by
  refine ⟨fun column => if column ∈ columns then second column else
    first column, ?_, ?_⟩
  · intro column
    dsimp only
    split
    · next isRead => exact agree column isRead
    · rfl
  · intro column isRead
    exact if_pos isRead

variable [Platform]

theorem evaluateOver
    {predicate : Expr} (agree : AgreeOn predicate.columns first second) :
    predicate.evaluateOver first = predicate.evaluateOver second := by
  obtain ⟨third, same, equal⟩ := agree.exists_same
  rw [Expr.evaluateOver_congr same, Expr.evaluateOver_of_columns predicate equal]

theorem evaluate
    {scalar : Scalar} (agree : AgreeOn scalar.columns first second) :
    (scalar.evaluate first).canonical = (scalar.evaluate second).canonical := by
  obtain ⟨third, same, equal⟩ := agree.exists_same
  rw [Scalar.evaluate_congr same, Scalar.evaluate_of_columns scalar equal]

end AgreeOn

section

variable [Platform]

/-- Lists of one length that agree on their first places that are known. -/
structure AgreeUpTo (width : Nat) (known : Ordinal → Prop)
    (first second : List Value) : Prop where
  length : first.length = second.length
  equal : ∀ ordinal, (ordinal < width → known ordinal) →
    (first[ordinal]?).map Value.canonical = (second[ordinal]?).map Value.canonical

variable {known : Ordinal → Prop} {first second : List Value} {width : Nat}
  {fromEntry : Option (Nat × Value)} {compute : List Scalar}
  {transient : List Ordinal}

omit [Platform] in
theorem AgreeUpTo.append
    {value value' : Value} (agree : AgreeUpTo width known first second)
    (equal : value.canonical = value'.canonical) :
    AgreeUpTo width known (first ++ [value]) (second ++ [value']) := by
  refine ⟨by simp [agree.length], ?_⟩
  intro ordinal isKnown
  rcases Nat.lt_trichotomy ordinal first.length with inside | rfl | outside
  · rw [getElem?_append_left inside, getElem?_append_left (agree.length ▸ inside)]
    exact agree.equal ordinal isKnown
  · rw [getElem?_concat_length, agree.length, getElem?_concat_length]
    exact congrArg some equal
  · rw [getElem?_eq_none (by simp; omega),
      getElem?_eq_none (by simp [← agree.length]; omega)]

omit [Platform] in
theorem AgreeUpTo.imp
    {known known' : Ordinal → Prop} (agree : AgreeUpTo width known first second)
    (more : ∀ ordinal, known' ordinal → known ordinal) :
    AgreeUpTo width known' first second :=
  ⟨agree.length, fun ordinal isKnown =>
    agree.equal ordinal (fun inside => more ordinal (isKnown inside))⟩

/-- How a computed column of an entry comes by the value that a row has. -/
def SuppliedAt (width : Nat) (known : Ordinal → Prop) (row : List Value)
    (fromEntry : Option (Nat × Value)) (position : Nat) (scalar : Scalar) :
    Prop :=
  (∃ value, fromEntry = some (position, value) ∧ value.canonical =
        (scalar.evaluate (fun ordinal => row[ordinal]?)).canonical) ∨
    (∀ value, fromEntry ≠ some (position, value)) ∧
      ∀ column ∈ scalar.columns, column < width → known column

/-- Computed columns agree when each is supplied of the row before it. -/
theorem agreeUpTo_appendComputed_of_suppliedAt
    {position : Nat}
    (supplied : ∀ place scalar, compute[place]? = some scalar → SuppliedAt width known
        (appendComputed none position (compute.take place) second) fromEntry
        (position + place) scalar)
    (agree : AgreeUpTo width known first second) :
    AgreeUpTo width known (appendComputed fromEntry position compute first)
      (appendComputed none position compute second) := by
  induction compute generalizing position first second with
  | nil => exact agree
  | cons scalar rest ih =>
      rw [appendComputed.eq_def, appendComputed.eq_def]
      dsimp only
      refine ih ?_ (agree.append ?_)
      · intro place other found
        rw [Nat.add_assoc, Nat.add_comm 1]
        exact supplied (place + 1) other found
      · have computed : (∀ column ∈ scalar.columns, column < width → known column) →
            (scalar.evaluate (fun ordinal => first[ordinal]?)).canonical =
              (scalar.evaluate (fun ordinal => second[ordinal]?)).canonical := by
          intro isKnown
          exact AgreeOn.evaluate (fun column isRead =>
            agree.equal column (isKnown column isRead))
        rcases supplied 0 scalar rfl with
          ⟨value, isHeld, equal⟩ | ⟨notHeld, isKnown⟩
        · rw [isHeld]
          dsimp only
          rw [if_pos (Nat.add_zero position)]
          exact equal
        · split
          · next held value =>
              rw [if_neg]
              · exact computed isKnown
              · rintro rfl
                exact notHeld value rfl
          · exact computed isKnown

theorem agreeUpTo_appendComputed
    (isRead : ∀ scalar ∈ compute, ∀ column ∈ scalar.columns,
      column < width → known column)
    (agree : AgreeUpTo width known first second) :
    AgreeUpTo width known (appendComputed none 0 compute first)
      (appendComputed none 0 compute second) :=
  agreeUpTo_appendComputed_of_suppliedAt (fun _ scalar found =>
    Or.inr ⟨by simp, isRead scalar (mem_of_getElem? found)⟩) agree

omit [Platform] in
/-- Columns that are blanked hold nulls. -/
theorem getElem?_foldl_null
    (ordinals : List Ordinal) (values : List Value) (ordinal : Ordinal) :
    (ordinals.foldl (fun values ordinal => values.set ordinal .null) values)[ordinal]? =
      if ordinal ∈ ordinals then
        (values[ordinal]?).map (fun _ => .null)
      else
        values[ordinal]? := by
  induction ordinals generalizing values with
  | nil => simp
  | cons first rest ih =>
      rw [foldl_cons, ih, getElem?_set]
      by_cases inRest : ordinal ∈ rest
      · rw [if_pos inRest, if_pos (mem_cons_of_mem _ inRest)]
        split
        · next isFirst =>
            subst isFirst
            split
            · next inside =>
                rw [getElem?_eq_getElem inside]
                rfl
            · next outside => rw [getElem?_eq_none (Nat.le_of_not_lt outside)]
        · rfl
      · rw [if_neg inRest]
        by_cases isFirst : first = ordinal
        · subst isFirst
          rw [if_pos rfl, if_pos (mem_cons_self ..)]
          split
          · next inside =>
              rw [getElem?_eq_getElem inside]
              rfl
          · next outside =>
              rw [getElem?_eq_none (Nat.le_of_not_lt outside)]
              rfl
        · rw [if_neg isFirst, if_neg]
          intro member
          rcases mem_cons.mp member with rfl | inRest'
          · exact isFirst rfl
          · exact inRest inRest'

/-- Rows whose columns agree but for what is blanked are extended alike. -/
theorem same_extendRow_of_agreeUpTo
    {first second : Row}
    (extended : AgreeUpTo width known (appendComputed fromEntry 0 compute first.values)
      (appendComputed none 0 compute second.values))
    (blanked : ∀ ordinal, ordinal < width →
      known ordinal ∨ compute ≠ [] ∧ ordinal ∈ transient) :
    (extendRow first compute transient fromEntry).Same
      (extendRow second compute transient none) := by
  rw [extendRow, extendRow]
  by_cases isEmpty : compute = []
  · rw [if_pos (by simp [isEmpty]), if_pos (by simp [isEmpty])]
    subst isEmpty
    refine ext_getElem? (fun ordinal => ?_)
    rw [getElem?_map, getElem?_map]
    refine extended.equal ordinal (fun inside => ?_)
    exact (blanked ordinal inside).resolve_right (fun both => both.1 rfl)
  · rw [if_neg (by simpa using isEmpty), if_neg (by simpa using isEmpty)]
    refine ext_getElem? (fun ordinal => ?_)
    rw [getElem?_map, getElem?_map, getElem?_foldl_null, getElem?_foldl_null]
    by_cases isBlanked : ordinal ∈ transient
    · rw [if_pos isBlanked, if_pos isBlanked]
      by_cases inside : ordinal < (appendComputed none 0 compute second.values).length
      · rw [getElem?_eq_getElem inside, getElem?_eq_getElem (extended.length ▸ inside)]
        rfl
      · rw [getElem?_eq_none (Nat.le_of_not_lt inside),
          getElem?_eq_none (extended.length ▸ Nat.le_of_not_lt inside)]
    · rw [if_neg isBlanked, if_neg isBlanked]
      refine extended.equal ordinal (fun inside => ?_)
      exact (blanked ordinal inside).resolve_right (fun both => isBlanked both.2)

variable {ordinal : Ordinal}

theorem get_extendRow_of_kept
    (row : Row) (fromEntry : Option (Nat × Value))
    (isKept : ordinal ∉ transient) :
    (extendRow row compute transient fromEntry).get ordinal =
      (appendComputed fromEntry 0 compute row.values)[ordinal]? := by
  rw [extendRow]
  split
  · next isEmpty =>
      rw [isEmpty_iff.mp isEmpty]
      rfl
  · rw [Row.get, getElem?_foldl_null, if_neg isKept]

theorem canonical_get_extendRow
    {first second : Row}
    (isRead : ∀ scalar ∈ compute, ∀ column ∈ scalar.columns,
      column < width → known column)
    (agree : AgreeUpTo width known first.values second.values)
    (isKnown : ordinal < width → known ordinal)
    (isKept : ordinal ∉ transient) :
    ((extendRow first compute transient none).get ordinal).map Value.canonical =
      ((extendRow second compute [] none).get ordinal).map
        Value.canonical := by
  rw [get_extendRow_of_kept first none isKept,
    get_extendRow_of_kept second none not_mem_nil]
  exact (agreeUpTo_appendComputed isRead agree).equal ordinal isKnown

theorem Row.Same.extendRow
    {first second : Row} (same : first.Same second) (compute : List Scalar)
    (transient : List Ordinal) :
    (SlateOrm.extendRow first compute transient none).Same
      (SlateOrm.extendRow second compute transient none) := by
  let known : Ordinal → Prop := fun _ => True
  have agree : AgreeUpTo 0 known first.values second.values := by
    refine ⟨by simpa using congrArg length same, ?_⟩
    exact fun ordinal _ => same.sameColumns ordinal
  exact same_extendRow_of_agreeUpTo (agreeUpTo_appendComputed
    (fun _ _ _ _ _ => trivial) agree) (fun _ _ => Or.inl trivial)

/-! ## Answers -/

/-- The values of a row, up to equality. -/
def Row.canonical (row : Row) : List Value := row.values.map Value.canonical

/-- Some columns of a row and its primary key, nulls in place of the others. -/
def Row.restrict (row : Row) (table : TableDef) (columns : ColumnSet) : Row :=
  ⟨(List.range table.columns.length).map (fun ordinal =>
    if ordinal ∈ columns ∨ ordinal ∈ table.primaryKey then
      row.valueOrNull ordinal
    else
      .null)⟩

namespace RowShape

/-- What is returned of a row. -/
def output (shape : RowShape) (row : Row) : Row :=
  extendRow (row.restrict shape.table shape.decodeColumns) shape.compute
    shape.transient none

/-- What is returned of a row, if the filter admits it. -/
def answer (shape : RowShape) (row : Row) : Option Row :=
  if shape.residual.admits (extendRow row shape.compute [] none) then
    some (shape.output row)
  else
    none

/-- What is decoded is enough for the filter and the computed columns. -/
structure Sound (shape : RowShape) : Prop where
  filter : ∀ column ∈ shape.residual.columns, column < shape.table.columns.length →
      column ∈ shape.decodeColumns ∧ column ∉ shape.transient
  computed : ∀ scalar ∈ shape.compute, ∀ column ∈ scalar.columns,
    column < shape.table.columns.length → column ∈ shape.decodeColumns
  transient : ∀ column ∈ shape.transient, column < shape.table.columns.length
  decoded : shape.decodeColumns ⊆ Finset.range shape.table.columns.length
  filterFirst : shape.compute = [] → ∀ column ∈ shape.residual.columns,
    column < shape.table.columns.length → column ∈ shape.filterColumns
  filtered : shape.compute = [] →
    shape.filterColumns ⊆ Finset.range shape.table.columns.length

end RowShape

omit [Platform] in
theorem valueOrNull_restrict
    {row : Row} {table : TableDef} {columns : ColumnSet}
    (inRange : ordinal < table.columns.length) :
    (row.restrict table columns).valueOrNull ordinal =
      if ordinal ∈ columns ∨ ordinal ∈ table.primaryKey then
        row.valueOrNull ordinal
      else
        .null := by
  have found : ((row.restrict table columns).values)[ordinal]? =
      some (if ordinal ∈ columns ∨ ordinal ∈ table.primaryKey then
        row.valueOrNull ordinal else .null) := by
    rw [Row.restrict, getElem?_map, getElem?_range inRange]
    rfl
  rw [Row.valueOrNull, Row.get, found]
  rfl

omit [Platform] in
@[simp] theorem length_restrict
    (row : Row) (table : TableDef) (columns : ColumnSet) :
    (row.restrict table columns).values.length = table.columns.length := by
  rw [Row.restrict, length_map, length_range]

section

variable
  {table : TableDef}
  (wellFormed : table.WellFormed)
  (current : table.Current)
  {row : Row}
  (valid : row.validate table = .ok ())
  (fits : row.Fits)
  {primaryKey : List Value}
  (sameKey : primaryKey.map Value.canonical =
    (row.primaryKeyValues table).map Value.canonical)

include wellFormed current valid fits sameKey

theorem decodeRowColumns_eq_restrict
    (columns : ColumnSet) {asked : Option ColumnSet}
    (asks : ∀ ordinal, ordinal < table.columns.length →
      (isWanted asked ordinal = true ↔ ordinal ∈ columns)) :
    ∃ found, decodeRowColumns table primaryKey (encodeBody table row) asked =
        .ok found ∧ found.Same (row.restrict table columns) := by
  refine ⟨_, decodeRowColumns_of_current wellFormed
    (Row.codes_of_validate wellFormed valid) current _ _, ?_⟩
  have blankWidth : table.blank.length = table.columns.length := length_replicate ..
  apply Row.same_of_valueOrNull
  · rw [length_fillKey, length_readInto, blankWidth, length_restrict]
  · intro ordinal inRange
    rw [length_fillKey, length_readInto, blankWidth] at inRange
    rw [valueOrNull_restrict inRange]
    by_cases isKept : ordinal ∈ columns ∨ ordinal ∈ table.primaryKey
    · rw [if_pos isKept]
      refine canonical_valueOrNull_read wellFormed valid sameKey asked inRange
        ?_ (fits.valueOrNull ordinal)
      exact isKept.imp_left (asks ordinal inRange).mpr
    · obtain ⟨notAsked, outside⟩ := not_or.mp isKept
      rw [if_neg isKept, valueOrNull_fillKey_of_notMem outside,
        getElem?_readInto_of_notMem, TableDef.blank, getElem?_replicate, if_pos inRange]
      · rfl
      · intro isRead
        exact notAsked ((asks ordinal inRange).mp (mem_filter.mp isRead).2)

end

omit [Platform] in
theorem isWanted_wanted
    {columns : ColumnSet} {table : TableDef}
    (within : columns ⊆ Finset.range table.columns.length)
    (inRange : ordinal < table.columns.length) :
    isWanted (wanted columns table) ordinal = true ↔ ordinal ∈ columns := by
  rw [wanted]
  split
  · next all =>
      have everything : columns = Finset.range table.columns.length := by
        refine Finset.eq_of_subset_of_card_le within ?_
        rw [Finset.card_range]
        simpa [ColumnSet.coversAll] using all
      rw [everything]
      simpa [isWanted] using inRange
  · simp [isWanted]

namespace RowShape

variable
  {shape : RowShape}
  {row : Row}

omit [Platform] in
theorem agreeUpTo_restrict_kept
    (width : row.values.length = shape.table.columns.length)
    (columns : ColumnSet) :
    AgreeUpTo shape.table.columns.length
      (fun ordinal => ordinal ∈ columns ∨ ordinal ∈ shape.table.primaryKey)
      (row.restrict shape.table columns).values row.values := by
  refine ⟨by rw [length_restrict, width], fun ordinal isKnown => ?_⟩
  by_cases inRange : ordinal < shape.table.columns.length
  · have inRow : ordinal < row.values.length := by
      rw [width]
      exact inRange
    rw [Row.restrict, getElem?_map, getElem?_range inRange, Option.map_some, if_pos
      (isKnown inRange), Row.valueOrNull, Row.get, getElem?_eq_getElem inRow]
    rfl
  · rw [getElem?_eq_none (by rw [length_restrict]; omega), getElem?_eq_none (by omega)]

omit [Platform] in
theorem agreeUpTo_restrict
    (width : row.values.length = shape.table.columns.length)
    (columns : ColumnSet) :
    AgreeUpTo shape.table.columns.length (fun ordinal => ordinal ∈ columns)
      (row.restrict shape.table columns).values row.values :=
  (agreeUpTo_restrict_kept width columns).imp (fun _ => Or.inl)

variable (sound : shape.Sound)

include sound

theorem admits_output
    (width : row.values.length = shape.table.columns.length) :
    shape.residual.admits (shape.output row) =
      shape.residual.admits (extendRow row shape.compute [] none) := by
  have agree : AgreeOn shape.residual.columns (shape.output row).get
      (extendRow row shape.compute [] none).get := by
    intro column isRead
    refine canonical_get_extendRow sound.computed (agreeUpTo_restrict width
      shape.decodeColumns) (fun inRange => (sound.filter column isRead inRange).1) ?_
    intro isTransient
    exact (sound.filter column isRead
      (sound.transient column isTransient)).2 isTransient
  rw [Expr.admits, Expr.admits, Expr.evaluate, Expr.evaluate, agree.evaluateOver]

theorem admits_of_same
    (width : row.values.length = shape.table.columns.length)
    {found : Row} (same : found.Same (shape.output row)) :
    shape.residual.admits found =
      shape.residual.admits (extendRow row shape.compute [] none) := by
  rw [← admits_output sound width, Expr.admits, Expr.admits, Expr.evaluate,
    Expr.evaluate, Expr.evaluateOver_congr same.sameColumns]

theorem canonical_answer
    (width : row.values.length = shape.table.columns.length)
    {found : Row} (same : found.Same (shape.output row)) :
    (if shape.residual.admits found then some found else none).map Row.canonical =
      (shape.answer row).map Row.canonical := by
  rw [admits_of_same sound width same, answer]
  split
  · exact congrArg some same
  · rfl

variable
  (wellFormed : shape.table.WellFormed)
  (current : shape.table.Current)
  (valid : row.validate shape.table = .ok ())
  (fits : row.Fits)
  {primaryKey : List Value}
  (sameKey : primaryKey.map Value.canonical =
    (row.primaryKeyValues shape.table).map Value.canonical)

include wellFormed current valid fits sameKey

/-- A stored row is materialised to what the query makes of it. -/
theorem materialise_encodeBody :
    ∃ found, materialise shape ⟨primaryKey, encodeBody shape.table row⟩ = .ok found ∧
      found.map Row.canonical = (shape.answer row).map Row.canonical := by
  have width := Row.width_of_validate valid
  have decodes : ∀ columns : ColumnSet,
      columns ⊆ Finset.range shape.table.columns.length →
        ∃ found, liftSchema (decodeRowColumns shape.table primaryKey
            (encodeBody shape.table row) (wanted columns shape.table)) = .ok found ∧
          found.Same (row.restrict shape.table columns) := by
    intro columns within
    obtain ⟨found, decoded, same⟩ := decodeRowColumns_eq_restrict wellFormed current
      valid fits sameKey columns (fun ordinal inRange => isWanted_wanted within inRange)
    exact ⟨found, liftSchema_eq_ok.mpr decoded, same⟩
  obtain ⟨decoded, isDecoded, same⟩ := decodes _ sound.decoded
  rw [materialise]
  split
  · refine ⟨_, bind_eq_ok.mpr ⟨decoded, isDecoded, rfl⟩, ?_⟩
    exact canonical_answer sound width (same.extendRow _ _)
  · next noCompute =>
      have isEmpty : shape.compute = [] := by simpa using noCompute
      have sameOutput : decoded.Same (shape.output row) := by
        rw [output, extendRow, if_pos (by simp [isEmpty])]
        exact same
      split
      · obtain ⟨filtered, isFiltered, sameFiltered⟩ :=
          decodes _ (sound.filtered isEmpty)
        have admits : shape.residual.admits filtered =
            shape.residual.admits (extendRow row shape.compute [] none) := by
          have agree : AgreeOn shape.residual.columns filtered.get
              (extendRow row shape.compute [] none).get := by
            intro column isRead
            rw [sameFiltered.sameColumns column, isEmpty]
            exact (agreeUpTo_restrict width shape.filterColumns).equal column
              (sound.filterFirst isEmpty column isRead)
          rw [Expr.admits, Expr.admits, Expr.evaluate, Expr.evaluate,
            agree.evaluateOver]
        refine ⟨_, bind_eq_ok.mpr ⟨filtered, isFiltered, ?_⟩,
          canonical_answer sound width sameOutput⟩
        rw [admits_of_same sound width sameOutput, ← admits]
        split
        · exact bind_eq_ok.mpr ⟨decoded, isDecoded, rfl⟩
        · rfl
      · exact ⟨_, bind_eq_ok.mpr ⟨decoded, isDecoded, rfl⟩,
          canonical_answer sound width sameOutput⟩

theorem collect_pointSource
    {snapshot : Snapshot}
    (found : snapshot.get (Keys.rowKey shape.table primaryKey) =
      some (encodeBody shape.table row)) :
    ∃ rows, (pointSource snapshot shape primaryKey).collect = .ok rows ∧
      rows.map Row.canonical = ((shape.answer row).map Row.canonical).toList := by
  have width := Row.width_of_validate valid
  have asks : ∀ ordinal, ordinal < shape.table.columns.length →
      (isWanted (some shape.decodeColumns) ordinal = true ↔
        ordinal ∈ shape.decodeColumns) := by
    intro ordinal _
    simp [isWanted]
  obtain ⟨decoded, isDecoded, same⟩ := decodeRowColumns_eq_restrict wellFormed
    current valid fits sameKey shape.decodeColumns asks
  rw [pointSource, readRowBody, found]
  dsimp only
  rw [liftSchema_eq_ok.mpr isDecoded]
  dsimp only
  have equal := canonical_answer sound width
    (same.extendRow shape.compute shape.transient)
  rw [← equal]
  split
  · exact ⟨_, rfl, rfl⟩
  · exact ⟨_, rfl, rfl⟩

end RowShape

omit [Platform] in
@[simp] theorem residual_planHinted
    (table : TableDef) (predicate : Expr) (order : ScanOrder)
    (projection : Projection) (stats : TableStats) (sort : List SortKey)
    (hint : Option AccessHint) (compute : List Scalar) :
    (planHinted table predicate order projection stats sort hint
      compute).residual = predicate.prepared := by
  rw [planHinted.eq_def]
  dsimp only
  split <;> rfl

omit [Platform] in
@[simp] theorem predicateColumns_planHinted
    (table : TableDef) (predicate : Expr) (order : ScanOrder)
    (projection : Projection) (stats : TableStats) (sort : List SortKey)
    (hint : Option AccessHint) (compute : List Scalar) :
    (planHinted table predicate order projection stats sort hint
      compute).predicateColumns =
      (predicate.columns.flatMap (fun column =>
        expandedInputs column table.columns.length compute)).toFinset := by
  rw [planHinted.eq_def]
  dsimp only
  split <;> rfl

omit [Platform] in
theorem planOutputColumns_subset
    (table : TableDef) (predicate : Expr) (projection : Projection)
    (sort : List SortKey) :
    planOutputColumns table predicate projection sort ⊆
      Finset.range table.columns.length := by
  rw [planOutputColumns.eq_def]
  cases projection with
  | all => exact Finset.Subset.refl _
  | columns ordinals =>
      intro ordinal member
      simpa using (mem_filter.mp (mem_toFinset.mp member)).2

omit [Platform] in
theorem mem_planOutputColumns_of_filter
    {table : TableDef} {predicate : Expr} (projection : Projection)
    (sort : List SortKey) {column : Ordinal}
    (isRead : column ∈ predicate.columns)
    (inRange : column < table.columns.length) :
    column ∈ planOutputColumns table predicate projection sort := by
  rw [planOutputColumns.eq_def]
  cases projection with
  | all => exact Finset.mem_range.mpr inRange
  | columns ordinals =>
      rw [mem_toFinset, mem_filter]
      exact ⟨mem_append_left _ (mem_append_left _ isRead), by simpa using inRange⟩

omit [Platform] in
/-- A plan decodes enough. -/
theorem sound_rowShape
    (table : TableDef) (predicate : Expr) (order : ScanOrder)
    (projection : Projection) (stats : TableStats) (sort : List SortKey)
    (hint : Option AccessHint) (compute : List Scalar) :
    (rowShape table (planHinted table predicate order projection stats sort
      hint compute) compute).Sound := by
  constructor
  · intro column isRead inRange
    simp only [rowShape, residual_planHinted, outputColumns_planHinted,
      Expr.columns_prepared] at isRead inRange ⊢
    have isOutput := mem_planOutputColumns_of_filter projection sort isRead inRange
    refine ⟨Finset.mem_union_left _ isOutput, fun isTransient => ?_⟩
    rw [transientColumns, mem_dedup, mem_filter] at isTransient
    simpa [isOutput] using isTransient.2
  · intro scalar isComputed column isRead inRange
    simp only [rowShape, outputColumns_planHinted] at isComputed inRange ⊢
    rw [Finset.mem_union]
    by_cases isOutput : column ∈ planOutputColumns table predicate projection sort
    · exact Or.inl isOutput
    · refine Or.inr (mem_toFinset.mpr (mem_dedup.mpr ?_))
      rw [mem_filter, mem_flatMap]
      exact ⟨⟨scalar, isComputed, isRead⟩, by simp [inRange, isOutput]⟩
  · intro column isTransient
    simp only [rowShape] at isTransient ⊢
    rw [transientColumns, mem_dedup, mem_filter] at isTransient
    simpa using (of_decide_eq_true isTransient.2).1
  · simp only [rowShape, outputColumns_planHinted]
    refine Finset.union_subset (planOutputColumns_subset ..) ?_
    intro column isTransient
    rw [List.mem_toFinset, transientColumns, mem_dedup, mem_filter] at isTransient
    exact Finset.mem_range.mpr (of_decide_eq_true isTransient.2).1
  · intro isEmpty column isRead inRange
    simp only [rowShape, residual_planHinted, predicateColumns_planHinted,
      Expr.columns_prepared] at isEmpty isRead inRange ⊢
    rw [mem_toFinset, mem_flatMap]
    exact ⟨column, isRead, by simp [expandedInputs, inRange]⟩
  · intro isEmpty column isRead
    simp only [rowShape, predicateColumns_planHinted] at isEmpty isRead ⊢
    rw [mem_toFinset, mem_flatMap] at isRead
    obtain ⟨other, -, isInput⟩ := isRead
    rw [expandedInputs, isEmpty] at isInput
    split at isInput
    · next inRange =>
        obtain rfl := mem_singleton.mp isInput
        exact Finset.mem_range.mpr inRange
    · simp at isInput

end

end SlateOrm
