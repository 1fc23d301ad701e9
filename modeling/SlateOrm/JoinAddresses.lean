import Mathlib.Algebra.BigOperators.Group.List.Basic
import SlateOrm.Joins

namespace SlateOrm

open List

/-!
# Addresses in joined rows

A column of a joined table has one ordinal in the joined space, which names it
whether the rows are read apart or laid end to end.  A side that is absent or
cut short is read as missing values in the one and as nulls in the other, which
no condition tells apart.
-/

namespace JoinSchema

variable {widths : List Nat} {position start column place : Nat}

theorem locateFrom_sum
    {index width : Nat}
    (isWidth : widths[index]? = some width)
    (inside : place < width) :
    locateFrom position start widths (start + (widths.take index).sum + place) =
      some (position + index, place) := by
  induction widths generalizing position start index with
  | nil => cases isWidth
  | cons first rest ih =>
      rw [locateFrom]
      cases index with
      | zero =>
          cases isWidth
          rw [if_pos (by simp [inside])]
          simp
      | succ index =>
          have past (inside : start ≤ start + (first + (rest.take index).sum) + place ∧
              start + (first + (rest.take index).sum) + place <
                start + first) : False := by
            omega
          rw [take_succ_cons, sum_cons, if_neg past]
          have located := @ih (position + 1) (start + first) index isWidth
          rw [Nat.add_assoc start] at located
          rw [located, Nat.add_assoc position, Nat.add_comm 1]

theorem sum_of_locateFrom
    {found : Nat × Nat}
    (located : locateFrom position start widths column = some found) :
    ∃ index width, found.1 = position + index ∧
      widths[index]? = some width ∧ found.2 < width ∧
      column = start + (widths.take index).sum + found.2 := by
  induction widths generalizing position start with
  | nil => cases located
  | cons first rest ih =>
      rw [locateFrom] at located
      split at located
      · next inside =>
          cases located
          have inside : start ≤ column ∧ column < start + first := inside
          refine ⟨0, first, rfl, rfl, ?_, ?_⟩
          · dsimp only
            omega
          · simp only [take_zero, sum_nil]
            omega
      · obtain ⟨index, width, isPosition, isWidth, inside, isColumn⟩ := ih located
        refine ⟨index + 1, width, by omega, isWidth, inside, ?_⟩
        rw [take_succ_cons, sum_cons]
        omega

theorem le_of_locateFrom_eq_none
    (notLocated : locateFrom position start widths column = none)
    (from' : start ≤ column) :
    start + widths.sum ≤ column := by
  induction widths generalizing position start with
  | nil => simpa using from'
  | cons first rest ih =>
      rw [locateFrom] at notLocated
      split at notLocated
      · cases notLocated
      · next outside =>
          have outside : ¬(start ≤ column ∧ column < start + first) := outside
          have later := ih notLocated (by omega)
          rw [sum_cons]
          omega

variable {schema : JoinSchema}

theorem lt_length_of_lt_widthAt
    (inside : place < schema.widthAt position) :
    position < schema.widths.length := by
  by_contra past
  rw [widthAt, getElem?_eq_none (Nat.le_of_not_lt past)] at inside
  cases inside

theorem locate_atPosition
    (inside : place < schema.widthAt position) :
    schema.locate (schema.atPosition position place) = some (position, place) := by
  have within := lt_length_of_lt_widthAt inside
  have isWidth := getElem?_eq_getElem within
  rw [widthAt, isWidth] at inside
  have located := @locateFrom_sum schema.widths 0 0 place position _ isWidth inside
  rw [Nat.zero_add, Nat.zero_add] at located
  rw [locate, atPosition, if_pos within, located]

theorem atPosition_of_locate
    (located : schema.locate column = some (position, place)) :
    place < schema.widthAt position ∧ schema.atPosition position place = column := by
  obtain ⟨index, width, isPosition, isWidth, inside, isColumn⟩ :=
    sum_of_locateFrom located
  dsimp only at isPosition inside isColumn
  rw [Nat.zero_add] at isPosition isColumn
  subst isPosition
  refine ⟨by rw [widthAt, isWidth]; exact inside, ?_⟩
  rw [atPosition, if_pos (List.getElem?_eq_some_iff.mp isWidth).1, isColumn]

end JoinSchema

/-! ## Rows laid end to end -/

/-- A side of a width, absent where nothing matched. -/
def sideValues (width : Nat) (side : Option Row) : List Value :=
  resize ((side.map Row.values).getD []) width

@[simp] theorem length_resize
    (values : List Value) (length : Nat) :
    (resize values length).length = length := by
  rw [resize, length_append, length_take, length_replicate]
  omega

theorem getElem?_sideValues
    {width place : Nat} (side : Option Row)
    (inside : place < width) :
    (sideValues width side)[place]? =
      some ((side.bind (fun row => row.get place)).getD .null) := by
  have isValue (values : List Value) :
      (resize values width)[place]? = some ((values[place]?).getD .null) := by
    rw [resize, getElem?_append, length_take]
    split
    · next within =>
        rw [getElem?_take_of_lt inside,
          getElem?_eq_getElem (by omega), Option.getD_some]
    · next past =>
        rw [getElem?_replicate, if_pos (by omega),
          @List.getElem?_eq_none _ values _ (by omega), Option.getD_none]
  rw [sideValues, isValue]
  cases side with
  | none
  | some row => rfl

theorem flattenSide_eq
    {schema : JoinSchema} {values : List Value} {position : Nat}
    (side : Option Row)
    (within : position < schema.widths.length)
    (before : values.length = (schema.widths.take position).sum) :
    flattenSide schema values position side =
      values ++ sideValues (schema.widthAt position) side := by
  cases side with
  | none => simp [flattenSide, sideValues, resize]
  | some row =>
      rw [flattenSide, JoinSchema.atPosition, if_pos within, ← before, sideValues,
        resize, resize, take_length_add_append, take_take, Nat.min_self, append_assoc,
        length_append, Nat.add_sub_add_left, length_take]
      simp only [Option.map_some, Option.getD_some]
      congr 3
      omega

namespace ChainRow

variable {schema : JoinSchema} (row : ChainRow)

/-- The tables of a chain's row up to some position, laid end to end. -/
def laid (schema : JoinSchema) (count : Nat) : List (List Value) :=
  (List.range count).map (fun position =>
    sideValues (schema.widthAt position) (row.atPosition position))

theorem map_length_laid
    {count : Nat}
    (within : count ≤ schema.widths.length) :
    (row.laid schema count).map length = schema.widths.take count := by
  refine ext_getElem? (fun position => ?_)
  rw [laid, map_map, getElem?_map, getElem?_take]
  by_cases inside : position < count
  · rw [getElem?_range inside, if_pos inside,
      getElem?_eq_getElem (Nat.lt_of_lt_of_le inside within)]
    simp [sideValues, JoinSchema.widthAt,
      getElem?_eq_getElem (Nat.lt_of_lt_of_le inside within)]
  · rw [if_neg inside, getElem?_eq_none (by simpa using inside), Option.map_none]

theorem values_flatten :
    (row.flatten schema).values = (row.laid schema schema.widths.length).flatten := by
  have upTo (count : Nat) (within : count ≤ schema.widths.length) :
      (range count).foldl (fun values position =>
          flattenSide schema values position (row.atPosition position)) [] =
        (row.laid schema count).flatten := by
    induction count with
    | zero => rfl
    | succ count ih =>
        have within' := Nat.le_of_succ_le within
        have before : (row.laid schema count).flatten.length =
            (schema.widths.take count).sum := by
          rw [length_flatten, map_length_laid row within']
        rw [range_succ, foldl_append, ih within',
          foldl_cons, foldl_nil, flattenSide_eq _ within before, laid,
          laid, range_succ, map_append, flatten_append]
        simp
  exact upTo _ (Nat.le_refl _)

theorem length_flatten :
    (row.flatten schema).values.length = schema.widths.sum := by
  rw [values_flatten, List.length_flatten,
    map_length_laid row (Nat.le_refl _), take_length]

theorem get_flatten
    {position place : Nat}
    (inside : place < schema.widthAt position) :
    (row.flatten schema).get (schema.atPosition position place) =
      some (((row.atPosition position).bind (fun side =>
        side.get place)).getD .null) := by
  have within := JoinSchema.lt_length_of_lt_widthAt inside
  rw [Row.get, values_flatten, JoinSchema.atPosition, if_pos within, ← map_length_laid
    row (Nat.le_of_lt within), ← getElem?_drop, ← getElem?_sideValues _ inside]
  have isStart : (row.laid schema position) =
      (row.laid schema schema.widths.length).take position := by
    rw [laid, laid, ← map_take, take_range, Nat.min_eq_left (Nat.le_of_lt within)]
  have isTable : position < (row.laid schema schema.widths.length).length := by
    simpa [laid] using within
  rw [isStart, map_take, drop_sum_flatten, drop_eq_getElem_cons isTable, flatten_cons,
    getElem?_append_left (by simpa [laid, sideValues] using inside)]
  simp [laid]

end ChainRow

/-! ## Conditions -/

/-- Columns that read the same but for nulls that are missing. -/
def Fills (first second : Columns) : Prop :=
  ∀ column, (first column).getD .null = (second column).getD .null

theorem Fills.eq_or
    {first second : Columns} (fills : Fills first second) (column : Ordinal) :
    first column = second column ∨ (first column = none ∧ second column = some .null) ∨
      (first column = some .null ∧ second column = none) := by
  have same := fills column
  cases isFirst : first column with
  | none =>
      cases isSecond : second column with
      | none => exact .inl rfl
      | some value =>
          rw [isFirst, isSecond] at same
          exact .inr (.inl ⟨rfl, congrArg some same.symm⟩)
  | some value =>
      cases isSecond : second column with
      | none =>
          rw [isFirst, isSecond] at same
          exact .inr (.inr ⟨congrArg some same, rfl⟩)
      | some other =>
          rw [isFirst, isSecond] at same
          exact .inl (congrArg some same)

theorem fills_chainView
    (schema : JoinSchema) (row : ChainRow) :
    Fills (chainView schema row none) (row.flatten schema).get := by
  intro column
  rw [chainView]
  cases located : schema.locate column with
  | none =>
      have past := JoinSchema.le_of_locateFrom_eq_none located (Nat.zero_le _)
      rw [Row.get, getElem?_eq_none (by
        rw [ChainRow.length_flatten]
        omega)]
      rfl
  | some found =>
      obtain ⟨position, place⟩ := found
      obtain ⟨inside, rfl⟩ := JoinSchema.atPosition_of_locate located
      rw [ChainRow.get_flatten row inside, Option.getD_some]
      simp only [bind, Option.bind]
      split
      · next isLast =>
          rw [ChainRow.atPosition, isLast, getElem?_eq_none (Nat.le_refl _)]
          rfl
      · cases row.atPosition position with
        | none
        | some side => rfl

section

variable [Platform] {row row' : Columns}

theorem Fills.evaluateOver_eq
    (fills : Fills row row') {test : Expr} {column : Ordinal}
    (isRead : test.columns = [column])
    (ofNull : test.evaluateOver (fun _ => none) =
      test.evaluateOver (fun _ => some .null)) :
    test.evaluateOver row = test.evaluateOver row' := by
  have ofColumn (first second : Columns) (same : first column = second column) :
      test.evaluateOver first = test.evaluateOver second := by
    refine Expr.evaluateOver_of_columns test (fun other member => ?_)
    rw [isRead, mem_singleton] at member
    rw [member, same]
  rcases fills.eq_or column with same | ⟨absent, isNull⟩ | ⟨isNull, absent⟩
  · exact ofColumn row row' same
  · exact (ofColumn row (fun _ => none) absent).trans
      (ofNull.trans (ofColumn (fun _ => some .null) row' isNull.symm))
  · exact (ofColumn row (fun _ => some .null) isNull).trans
      (ofNull.symm.trans (ofColumn (fun _ => none) row' absent.symm))

mutual

/-- No condition tells a null from a value that is missing. -/
theorem Expr.evaluateOver_of_fills
    (fills : Fills row row') :
    ∀ condition : Expr, condition.evaluateOver row = condition.evaluateOver row'
  | .true => rfl
  | .false => rfl
  | .compare column _ _
  | .isNull column _
  | .like column _ _ _
  | .matches column _ _ _
  | .contains column _
  | .in column _
  | .inSorted column _ _ => fills.evaluateOver_eq rfl rfl
  | .compareColumns left op right => by
      have first := fills.eq_or left
      have second := fills.eq_or right
      simp only [evaluateOver, evaluateCompareColumns]
      rcases first with same | ⟨absent, isNull⟩ | ⟨isNull, absent⟩
      · rcases second with same' | ⟨absent', isNull'⟩ | ⟨isNull', absent'⟩
        · rw [same, same']
        · rw [same, absent', isNull']
          cases row' left <;> simp [Value.isNull]
        · rw [same, absent', isNull']
          cases row' left <;> simp [Value.isNull]
      · rw [absent, isNull]
        cases row' right <;> simp [Value.isNull]
      · rw [absent, isNull]
        cases row right <;> simp [Value.isNull]
  | .and parts => evaluateAnd_of_map (evaluateList_of_fills fills parts) _
  | .or parts => evaluateOr_of_map (evaluateList_of_fills fills parts) _
  | .not inner => by
      rw [evaluateOver, evaluateOver, evaluateOver_of_fills fills inner]

theorem Expr.evaluateList_of_fills
    (fills : Fills row row') :
    ∀ parts : List Expr, parts.map (evaluateOver row) = parts.map (evaluateOver row')
  | [] => rfl
  | part :: rest =>
      congrArg₂ cons (evaluateOver_of_fills fills part)
        (evaluateList_of_fills fills rest)

end

omit [Platform] in
theorem chainView_pending
    (schema : JoinSchema) (row : ChainRow) (pending : Option Row) :
    chainView schema row pending = chainView schema (row.extended pending) none := by
  have same (found : Nat × Ordinal) : (if found.1 = row.rows.length then
        pending.bind (fun side => side.get found.2)
      else
        (row.atPosition found.1).bind (fun side => side.get found.2)) =
      if found.1 = (row.extended pending).rows.length then
        none
      else
        ((row.extended pending).atPosition found.1).bind
          (fun side => side.get found.2) := by
    obtain ⟨position, place⟩ := found
    simp only [ChainRow.atPosition, ChainRow.extended, length_append, length_singleton]
    rcases Nat.lt_trichotomy position row.rows.length with less | rfl | more
    · rw [if_neg (Nat.ne_of_lt less), if_neg (by omega), getElem?_append_left less]
    · simp
    · rw [if_neg (Nat.ne_of_gt more), getElem?_eq_none (by omega)]
      split
      · rfl
      · rw [getElem?_eq_none (by simp; omega)]
  funext column
  exact congrArg (Option.bind (schema.locate column)) (funext same)

omit [Platform] in
theorem fills_joinedView
    (left right : TableDef) (count : Nat) (row : JoinedRow) :
    let schema := (JoinSchema.of left right).computing count
    Fills (joinedView schema row.left row.right) (row.flatten schema).get := by
  intro schema
  have sameView : joinedView schema row.left row.right =
      chainView schema ⟨[row.left, row.right], []⟩ none := by
    funext column
    rw [joinedView, chainView, JoinSchema.resolve]
    cases schema.locate column with
    | none => rfl
    | some found =>
        obtain ⟨position, place⟩ := found
        match position with
        | 0 => rfl
        | 1 => rfl
        | 2 => rfl
        | position + 3 => rfl
  have sameRow : row.flatten schema =
      ChainRow.flatten ⟨[row.left, row.right], []⟩ schema := rfl
  rw [sameView, sameRow]
  exact fills_chainView schema _

/--
A column's ordinal in the joined space and the place it is located at are
inverse on the columns of every table, and a condition has the same truth read
from the rows of a join or a chain as from the row they are flattened to, absent
sides and rows about to be appended included.
-/
theorem addresses_agree :
    (∀ (schema : JoinSchema) (position : Nat) (place column : Ordinal),
      place < schema.widthAt position ∧ schema.atPosition position place = column ↔
        schema.locate column = some (position, place)) ∧
      (∀ (left right : TableDef) (count : Nat) (row : JoinedRow) (condition : Expr),
        let schema := (JoinSchema.of left right).computing count
        condition.evaluateOver (joinedView schema row.left row.right) =
          condition.evaluate (row.flatten schema)) ∧
      ∀ (schema : JoinSchema) (row : ChainRow) (condition : Expr),
        condition.evaluateOver (chainView schema row none) =
            condition.evaluate (row.flatten schema) ∧
          ∀ pending, condition.evaluateOver (chainView schema row pending) =
              condition.evaluate ((row.extended pending).flatten schema) := by
  refine ⟨fun schema position place column => ⟨?_, ?_⟩, fun left right count row
    condition => ?_, fun schema row condition => ⟨?_, fun pending => ?_⟩⟩
  · rintro ⟨inside, rfl⟩
    exact JoinSchema.locate_atPosition inside
  · exact JoinSchema.atPosition_of_locate
  · exact Expr.evaluateOver_of_fills (fills_joinedView left right count row) _
  · exact Expr.evaluateOver_of_fills (fills_chainView schema row) _
  · rw [chainView_pending]
    exact Expr.evaluateOver_of_fills (fills_chainView schema _) _

end

end SlateOrm
