import SlateOrm.Executor
import SlateOrm.PlanConstraints

namespace SlateOrm

open List Option

/-!
# The order of rows

Rows are stored under keys whose bytes come in the order of the columns that
they encode, and are sorted by comparing columns.  A walk over keys yields rows
in a requested order where the two comparisons agree.
-/

/-! ## Columns with directions -/

/-- How rows compare in columns, each in its direction. -/
def columnOrder (first second : Columns) : List (Ordinal × Direction) → Ordering
  | [] => .eq
  | (ordinal, direction) :: rest =>
      (direction.order ((first.valueOrNull ordinal).cmp
        (second.valueOrNull ordinal))).then (columnOrder first second rest)

@[simp] theorem columnOrder_nil
    (first second : Columns) :
    columnOrder first second [] = .eq :=
  rfl

theorem columnOrder_append
    (first second : Columns) (columns others : List (Ordinal × Direction)) :
    columnOrder first second (columns ++ others) =
      (columnOrder first second columns).then (columnOrder first second others) := by
  induction columns with
  | nil => rfl
  | cons column rest ih =>
      rw [cons_append, columnOrder, columnOrder, ih, Ordering.then_assoc]

variable {first second : Columns} {fixed : Ordinal → Bool} {sort : List SortKey}
  {order : ScanOrder} {natural : List (Ordinal × Direction)}

theorem encodeColumns_decided
    {columns : List (Ordinal × Direction)}
    (ordered : ∀ column ∈ columns, (first.valueOrNull column.1).Ordered) :
    OrderedCode.DecidedBy (encodeColumns first columns)
      (encodeColumns second columns) (columnOrder first second columns) := by
  induction columns with
  | nil => exact OrderedCode.DecidedBy.nil
  | cons column rest ih =>
      have head := encodeValue_direction_decided column.2
        (first.valueOrNull column.1) (second.valueOrNull column.1)
      rw [ordered column (mem_cons_self ..)] at head
      exact head.append (fun _ => ih
        (fun other member => ordered other (mem_cons_of_mem _ member)))

theorem columnOrder_filter
    (equal : ∀ ordinal, fixed ordinal = true →
      (first.valueOrNull ordinal).cmp (second.valueOrNull ordinal) = .eq)
    (columns : List (Ordinal × Direction)) :
    columnOrder first second columns = columnOrder first second
        (columns.filter (fun column => !fixed column.1)) := by
  induction columns with
  | nil => rfl
  | cons column rest ih =>
      cases isFixed : fixed column.1 with
      | true =>
          rw [columnOrder, equal column.1 isFixed, ih,
            filter_cons_of_neg (by simp [isFixed])]
          cases column.2 <;> rfl
      | false =>
          rw [filter_cons_of_pos (by simp [isFixed]), columnOrder, columnOrder, ih]

/-! ## Requested orders -/

/-- How two values compare in a requested order. -/
def SortKey.compare (key : SortKey) (first second : Value) : Ordering :=
  match first.isNull, second.isNull with
  | true, true => .eq
  | true, false => if key.nulls = .first then .lt else .gt
  | false, true => if key.nulls = .first then .gt else .lt
  | false, false => key.direction.order (first.cmp second)

/-- Rows of one width compare one requested column after the other. -/
theorem compareRows_cons
    {first second : Row}
    (sameWidth : first.values.length = second.values.length)
    (key : SortKey) (rest : List SortKey) :
    compareRows first second (key :: rest) =
      (key.compare (Columns.valueOrNull first.get key.column)
        (Columns.valueOrNull second.get key.column)).then
          (compareRows first second rest) := by
  have together : first.get key.column = none ↔ second.get key.column = none := by
    rw [Row.get, Row.get, getElem?_eq_none_iff, getElem?_eq_none_iff,
      sameWidth]
  rw [compareRows, Columns.valueOrNull, Columns.valueOrNull]
  cases isFirst : first.get key.column with
  | none =>
      rw [together.mp isFirst]
      rfl
  | some a =>
      cases isSecond : second.get key.column with
      | none =>
          rw [together.mpr isSecond] at isFirst
          cases isFirst
      | some b =>
          dsimp only [getD_some]
          rw [SortKey.compare]
          cases a.isNull <;> cases b.isNull <;> dsimp only
          · cases key.direction with
            | asc =>
                rw [Direction.order]
                cases a.cmp b <;> rfl
            | desc =>
                rw [Direction.order, ← Std.OrientedCmp.eq_swap]
                cases b.cmp a <;> rfl
          · obtain ⟨column, direction, nulls⟩ := key
            cases nulls <;> rfl
          · obtain ⟨column, direction, nulls⟩ := key
            cases nulls <;> rfl
          · rfl

theorem Value.cmp_of_canonical
    {first second first' second' : Value}
    (same : first.canonical = first'.canonical)
    (same' : second.canonical = second'.canonical) :
    first.cmp second = first'.cmp second' := by
  rw [← Value.cmp_canonical_left, ← Value.cmp_canonical_right, same, same',
    Value.cmp_canonical_left, Value.cmp_canonical_right]

/-- Rows compare by what they hold in the requested columns. -/
theorem compareRows_congr
    {first second first' second' : Row}
    (same : ∀ key ∈ sort, (first.get key.column).map Value.canonical =
      (first'.get key.column).map Value.canonical)
    (same' : ∀ key ∈ sort, (second.get key.column).map Value.canonical =
      (second'.get key.column).map Value.canonical) :
    compareRows first second sort = compareRows first' second' sort := by
  induction sort with
  | nil => rfl
  | cons key rest ih =>
      have sameRest := ih (fun other member => same other (mem_cons_of_mem _ member))
        (fun other member => same' other (mem_cons_of_mem _ member))
      have isSame := same key (mem_cons_self ..)
      have isSame' := same' key (mem_cons_self ..)
      rw [compareRows, compareRows]
      cases isFirst : first.get key.column with
      | none =>
          rw [isFirst] at isSame
          rw [map_eq_none_iff.mp isSame.symm]
          exact sameRest
      | some a =>
          rw [isFirst] at isSame
          obtain ⟨a', isFirst', sameFirst⟩ := map_eq_some_iff.mp isSame.symm
          rw [isFirst']
          cases isSecond : second.get key.column with
          | none =>
              rw [isSecond] at isSame'
              rw [map_eq_none_iff.mp isSame'.symm]
              exact sameRest
          | some b =>
              rw [isSecond] at isSame'
              obtain ⟨b', isSecond', sameSecond⟩ := map_eq_some_iff.mp isSame'.symm
              rw [isSecond']
              dsimp only
              rw [← Value.isNull_canonical a, ← Value.isNull_canonical b, ← sameFirst, ←
                sameSecond, Value.isNull_canonical, Value.isNull_canonical,
                Value.cmp_of_canonical sameFirst sameSecond, Value.cmp_of_canonical
                sameSecond sameFirst, sameRest]

/-- A requested order of a column is an order of its values. -/
instance SortKey.transCmp_compare (key : SortKey) : Std.TransCmp key.compare where
  eq_swap {first second} := by
    rw [SortKey.compare, SortKey.compare]
    have swapped : first.cmp second = (second.cmp first).swap := Std.OrientedCmp.eq_swap
    cases first.isNull <;> cases second.isNull <;> dsimp only
    · cases key.direction <;> simp [Direction.order, swapped]
    · split <;> rfl
    · split <;> rfl
    · rfl
  isLE_trans {first second third} isLE isLE' := by
    rw [SortKey.compare] at isLE isLE' ⊢
    have ofValues : (key.direction.order (first.cmp second)).isLE = true →
        (key.direction.order (second.cmp third)).isLE = true →
          (key.direction.order (first.cmp third)).isLE = true := by
      cases key.direction with
      | asc =>
          intro less less'
          rw [Direction.order] at less less' ⊢
          exact Std.TransCmp.isLE_trans less less'
      | desc =>
          intro less less'
          rw [Direction.order, ← Std.OrientedCmp.eq_swap] at less less' ⊢
          exact Std.TransCmp.isLE_trans less' less
    generalize first.isNull = isNull at isLE ⊢
    generalize second.isNull = isNull' at isLE isLE'
    generalize third.isNull = isNull'' at isLE' ⊢
    -- Nulls are all on one side, and only values are compared any further.
    cases isNull <;> cases isNull' <;> cases isNull''
    · exact ofValues isLE isLE'
    · exact isLE'
    · cases isFirst : key.nulls <;> simp [isFirst] at isLE isLE'
    · exact isLE
    · exact isLE
    · rfl
    · exact isLE'
    · rfl

theorem exists_transCmp_compareRows
    (width : Nat) (sort : List SortKey) :
    ∃ cmp : Row → Row → Ordering, Std.TransCmp cmp ∧
      ∀ first second : Row, first.values.length = width → second.values.length = width →
          compareRows first second sort = cmp first second := by
  induction sort with
  | nil =>
      refine ⟨fun _ _ => .eq, { eq_swap := rfl, isLE_trans := fun _ _ => rfl },
        fun _ _ _ _ => rfl⟩
  | cons key rest ih =>
      obtain ⟨cmp, isTrans, isCmp⟩ := ih
      let byHead (first second : Row) : Ordering :=
        key.compare (Columns.valueOrNull first.get key.column)
          (Columns.valueOrNull second.get key.column)
      have isHead : Std.TransCmp byHead :=
        { eq_swap := (key.transCmp_compare).eq_swap
          isLE_trans := (key.transCmp_compare).isLE_trans }
      refine ⟨compareLex byHead cmp, inferInstance, ?_⟩
      intro first second isWidth isWidth'
      rw [compareRows_cons (isWidth.trans isWidth'.symm),
        isCmp first second isWidth isWidth']
      rfl

theorem SortKey.compare_eq_of_natural
    {key : SortKey}
    (natural : key.nulls = NullsOrder.naturalFor key.direction)
    (first second : Value) :
    key.compare first second = key.direction.order (first.cmp second) := by
  obtain ⟨column, direction, nulls⟩ := key
  dsimp only at natural
  subst natural
  cases isNull : first.isNull with
  | true =>
      obtain rfl := Value.eq_null_of_isNull isNull
      cases second <;> cases direction <;> rfl
  | false =>
      cases isNull' : second.isNull with
      | true =>
          obtain rfl := Value.eq_null_of_isNull isNull'
          cases first <;> cases direction <;> rfl
      | false => rw [SortKey.compare, isNull, isNull']

theorem SortKey.compare_eq_of_cmp
    (key : SortKey) {first second : Value}
    (equal : first.cmp second = .eq) :
    key.compare first second = .eq := by
  have sameNull : first.isNull = second.isNull := by
    rw [← Value.isNull_canonical, (Value.cmp_eq_iff_canonical _ _).mp equal,
      Value.isNull_canonical]
  rw [SortKey.compare, sameNull, equal]
  cases second.isNull
  · cases key.direction <;> rfl
  · rfl

theorem compareRows_filter
    {first second : Row}
    (sameWidth : first.values.length = second.values.length)
    (equal : ∀ ordinal, fixed ordinal = true →
      (Columns.valueOrNull first.get ordinal).cmp
        (Columns.valueOrNull second.get ordinal) = .eq)
    (sort : List SortKey) :
    compareRows first second sort =
      compareRows first second (sort.filter (fun key => !fixed key.column)) := by
  induction sort with
  | nil => rfl
  | cons key rest ih =>
      rw [compareRows_cons sameWidth]
      cases isFixed : fixed key.column with
      | true =>
          rw [filter_cons_of_neg (by simp [isFixed]),
            key.compare_eq_of_cmp (equal key.column isFixed),
            ih]
          rfl
      | false =>
          rw [filter_cons_of_pos (by simp [isFixed]), compareRows_cons sameWidth, ih]

/-! ## Walks -/

/-- How things compare on a walk that may go backwards. -/
def ScanOrder.orient (order : ScanOrder) (result : Ordering) : Ordering :=
  match order with
  | .ascending => result
  | .descending => result.swap

@[simp] theorem ScanOrder.orient_eq
    (order : ScanOrder) :
    order.orient .eq = .eq := by
  cases order <;> rfl

theorem ScanOrder.orient_then
    (order : ScanOrder) (result next : Ordering) :
    order.orient (result.then next) =
      (order.orient result).then (order.orient next) := by
  cases order
  · rfl
  · exact Ordering.swap_then ..

theorem SortKey.compare_of_matchesStorage
    {key : SortKey} {stored : Direction}
    (isMatch : key.matchesStorage stored order = true)
    (first second : Value) :
    key.compare first second = order.orient (stored.order (first.cmp second)) := by
  have effective : ∀ direction : Direction, (key.direction == direction &&
        key.nulls == NullsOrder.naturalFor direction) = true →
      key.compare first second = direction.order (first.cmp second) := by
    intro direction isEffective
    rw [Bool.and_eq_true, beq_iff_eq, beq_iff_eq] at isEffective
    obtain ⟨rfl, natural⟩ := isEffective
    exact SortKey.compare_eq_of_natural natural first second
  rw [effective _ isMatch]
  cases stored <;> cases order <;> simp [ScanOrder.orient, Direction.order]

section

variable
  {first second : Row}
  (sameWidth : first.values.length = second.values.length)
  (satisfied : satisfiesSort order natural sort = true)

include sameWidth satisfied

theorem compareRows_of_satisfiesSort
    (inOrder : order.orient (columnOrder first.get second.get natural) ≠ .gt) :
    compareRows first second sort ≠ .gt := by
  induction natural generalizing sort with
  | nil =>
      cases sort with
      | nil => nofun
      | cons key rest => cases satisfied
  | cons column rest ih =>
      cases sort with
      | nil => nofun
      | cons key keys =>
          rw [satisfiesSort, Bool.and_eq_true, Bool.and_eq_true, beq_iff_eq]
            at satisfied
          obtain ⟨⟨isColumn, isMatch⟩, satisfied⟩ := satisfied
          rw [columnOrder, isColumn, ScanOrder.orient_then,
            ← SortKey.compare_of_matchesStorage isMatch] at inOrder
          rw [compareRows_cons sameWidth]
          cases isHead : key.compare (Columns.valueOrNull first.get key.column)
              (Columns.valueOrNull second.get key.column) with
          | lt => nofun
          | eq =>
              rw [isHead] at inOrder
              exact ih satisfied inOrder
          | gt =>
              rw [isHead] at inOrder
              exact absurd rfl inOrder

end

end SlateOrm
