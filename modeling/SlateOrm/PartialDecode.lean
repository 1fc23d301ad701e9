import SlateOrm.ColumnBits
import SlateOrm.QueryRows

namespace SlateOrm

open List

/-!
# Decoding some columns of a row

A decoder that wants some columns skips the others, and a skip lands where a
read would have.  Whatever body is decoded whole is decoded in part, and to the
same values.
-/

/-! ## Skipping and reading -/

namespace TupleReader

variable {reader after : TupleReader} {direction : Direction}

section

variable
  {type : ValueType}
  {value : Value}
  (success : reader.read type direction = .ok (value, after))

include success

/-- What is read as an element of a type is read by its code alone. -/
theorem exists_readDynamic_of_read :
    ∃ found, reader.readDynamic direction = .ok (found, after) := by
  rw [read] at success
  obtain ⟨⟨code, next⟩, readCode, success⟩ := bind_eq_ok.mp success
  dsimp only at success
  rw [readDynamic, readDynamicMasked, readDynamicWith, readCode]
  simp only [bind, Except.bind]
  by_cases isNull : code = Codes.NULL
  · rw [if_pos isNull] at success
    cases success
    exact ⟨.null, if_pos isNull⟩
  rw [if_neg isNull] at success ⊢
  by_cases isInt : Codes.isInt code = true
  · rw [if_pos isInt] at success ⊢
    obtain ⟨⟨⟨negative, magnitude⟩, last⟩, readBody, success⟩ := bind_eq_ok.mp success
    dsimp only at success
    have ends : last = after := by
      cases type <;> dsimp only at success
      case i64 =>
        split at success <;> cases success
        rfl
      case u64 =>
        split at success <;> cases success
        rfl
      all_goals cases success
    rw [readBody, ends]
    dsimp only
    split <;> exact ⟨_, rfl⟩
  rw [if_neg isInt] at success ⊢
  split at success
  · cases success
  · split at success
    · cases success
    · exact ⟨value, success⟩

theorem skip_of_read :
    reader.skip direction = .ok after := by
  obtain ⟨found, dynamic⟩ := exists_readDynamic_of_read success
  exact skip_of_readDynamic dynamic

end

end TupleReader

/-! ## Wanted values -/

/-- The values of some columns, nulls in place of the others. -/
def narrow (wanted : ColumnSet) (values : List Value) : List Value :=
  values.mapIdx (fun ordinal value => if ordinal ∈ wanted then value else .null)

@[simp]
theorem getElem?_narrow
    (wanted : ColumnSet) (values : List Value) (ordinal : Ordinal) :
    (narrow wanted values)[ordinal]? = (values[ordinal]?).map (fun value =>
        if ordinal ∈ wanted then value else .null) :=
  getElem?_mapIdx

@[simp]
theorem length_narrow
    (wanted : ColumnSet) (values : List Value) :
    (narrow wanted values).length = values.length :=
  length_mapIdx

variable {wanted : ColumnSet} {ordinals : List Ordinal} {table : TableDef}
  {reader after : TupleReader} {values found : List Value}
  {primaryKey : List Value}

theorem narrow_set_of_mem
    {ordinal : Ordinal}
    (isWanted : ordinal ∈ wanted)
    (values : List Value) (value : Value) :
    narrow wanted (values.set ordinal value) =
      (narrow wanted values).set ordinal value := by
  apply ext_getElem?
  intro place
  simp only [getElem?_narrow, getElem?_set, length_narrow]
  by_cases isPlace : ordinal = place
  · subst isPlace
    simp only [↓reduceIte]
    split <;> simp
  · simp [isPlace]

theorem narrow_set_of_notMem
    {ordinal : Ordinal}
    (unwanted : ordinal ∉ wanted)
    (values : List Value) (value : Value) :
    narrow wanted (values.set ordinal value) = narrow wanted values := by
  apply ext_getElem?
  intro place
  simp only [getElem?_narrow, getElem?_set]
  by_cases isPlace : ordinal = place
  · subst isPlace
    by_cases inside : ordinal < values.length
    · simp [inside, unwanted]
    · simp [inside]
  · simp [isPlace]

theorem narrow_replicate_null
    (wanted : ColumnSet) (count : Nat) :
    narrow wanted (replicate count .null) = replicate count .null := by
  apply ext_getElem?
  intro place
  rw [getElem?_narrow, getElem?_replicate]
  split <;> simp

/-! ## Columns of a body -/

/-- The columns of a body that are decoded whole are decoded in part, to the
values that are wanted and as far as the same byte. -/
theorem decodeColumns_narrow
    {written : UInt32} (wanted : ColumnSet) {decoded count : Nat}
    (success : decodeColumns table written none ordinals decoded reader values =
        .ok (count, after, found)) :
    decodeColumns table written (some wanted) ordinals decoded reader
        (narrow wanted values) =
      .ok (count, after, narrow wanted found) := by
  induction ordinals generalizing decoded reader values with
  | nil =>
      cases success
      rfl
  | cons ordinal rest ih =>
      have following {decoded : Nat} {reader : TupleReader} {value : Value}
          (success : decodeColumns table written none rest decoded reader
            (values.set ordinal value) = .ok (count, after, found)) :
          decodeColumns table written (some wanted) rest decoded reader
              (if isWanted (some wanted) ordinal then
                (narrow wanted values).set ordinal value
              else
                narrow wanted values) =
            .ok (count, after, narrow wanted found) := by
        rw [← ih success]
        by_cases isIn : ordinal ∈ wanted
        · have asked : isWanted (some wanted) ordinal = true := decide_eq_true isIn
          rw [narrow_set_of_mem isIn, if_pos asked]
        · rw [narrow_set_of_notMem isIn, if_neg (by simpa [isWanted] using isIn)]
      rw [decodeColumns] at success ⊢
      have whole : isWanted none ordinal = true := rfl
      cases isColumn : table.column ordinal with
      | none =>
          simp only [isColumn] at success ⊢
          exact ih success
      | some column =>
          simp only [isColumn, whole, Bool.not_true, Bool.or_false,
            if_true] at success ⊢
          split at success
          · next absent =>
              rw [if_pos absent]
              split at success
              · next added =>
                  rw [if_pos added]
                  split at success
                  · exact following success
                  · split at success
                    · cases success
                    · next isNullable =>
                        rw [if_neg isNullable]
                        exact ih success
              · next dropped =>
                  rw [if_neg dropped]
                  exact ih success
          · next isPresent =>
              rw [if_neg isPresent]
              split at success
              · next isDropped =>
                  rw [if_pos (by rw [isDropped, Bool.true_or])]
                  split at success
                  · cases success
                  · exact ih success
              · next isLive =>
                  split at success
                  · cases success
                  · next value after read =>
                      have followed := following success
                      -- A column that is not wanted is skipped as far as it
                      -- would be read.
                      cases asks : isWanted (some wanted) ordinal with
                      | true =>
                          rw [asks, if_pos rfl] at followed
                          rw [if_neg (by simpa using isLive)]
                          exact followed
                      | false =>
                          rw [asks, if_neg (by decide)] at followed
                          rw [if_pos (by simp), TupleReader.skip_of_read read]
                          exact followed

/-- Only the columns that are asked for are set. -/
theorem getElem?_decodeColumns_of_notMem
    {written : UInt32} {wanted : Option ColumnSet} {decoded count : Nat}
    {place : Ordinal}
    (outside : place ∉ ordinals)
    (success : decodeColumns table written wanted ordinals decoded reader values =
        .ok (count, after, found)) :
    found[place]? = values[place]? := by
  induction ordinals generalizing decoded reader values with
  | nil =>
      cases success
      rfl
  | cons ordinal rest ih =>
      rw [mem_cons, not_or] at outside
      have kept : ∀ value : Value,
          (values.set ordinal value)[place]? = values[place]? :=
        fun value => getElem?_set_ne (Ne.symm outside.1)
      rw [decodeColumns] at success
      split at success
      · exact ih outside.2 success
      · split at success
        · split at success
          · split at success
            · have same := ih outside.2 success
              split at same
              · exact same.trans (kept _)
              · exact same
            · split at success
              · cases success
              · exact ih outside.2 success
          · exact ih outside.2 success
        · split at success
          · split at success
            · cases success
            · exact ih outside.2 success
          · split at success
            · cases success
            · exact (ih outside.2 success).trans (kept _)

/-! ## Rows -/

theorem narrow_eq_of_unwanted
    (unwanted : ∀ ordinal ∈ ordinals, ordinal ∉ wanted)
    {values : List Value} {width : Nat}
    (length : values.length = width)
    (others : ∀ place, place ∉ ordinals →
      values[place]? = (replicate width Value.null)[place]?) :
    narrow wanted values = replicate width .null := by
  apply ext_getElem?
  intro place
  rw [getElem?_narrow]
  by_cases inside : place < width
  · have filled : (replicate width Value.null)[place]? = some .null :=
      getElem?_replicate_of_lt inside
    by_cases isIn : place ∈ wanted
    · have outside : place ∉ ordinals := fun member => unwanted place member isIn
      rw [others place outside, filled]
      simp
    · rw [filled, getElem?_eq_getElem (length ▸ inside)]
      simp [isIn]
  · rw [getElem?_eq_none (by omega), getElem?_eq_none (by rw [length_replicate]; omega)]
    rfl

/-- A body that is decoded whole is decoded in part: the columns of the body
are narrowed to those that are wanted, and the key is filled in either way. -/
theorem exists_values_of_decodeRow
    {body : Bytes} {row : Row}
    (success : decodeRow table primaryKey body = .ok row) :
    ∃ values, values.length = table.columns.length ∧
      row = ⟨fillKey table primaryKey values⟩ ∧
      (∀ ordinal, ordinal ∉ table.bodyColumns → values[ordinal]? =
          (replicate table.columns.length Value.null)[ordinal]?) ∧
      ∀ wanted : ColumnSet, decodeRowColumns table primaryKey body (some wanted) =
          .ok ⟨fillKey table primaryKey (narrow wanted values)⟩ := by
  rw [decodeRow] at success
  cases body with
  | nil => cases success
  | cons format rest =>
      simp only [decodeRowColumns] at success ⊢
      split at success
      · cases success
      next isFormat =>
      simp only [if_neg isFormat]
      split at success
      · cases success
      next isLong =>
      simp only [if_neg isLong]
      split at success
      · cases success
      next isKnown =>
      simp only [if_neg isKnown]
      rw [if_neg (by simp)] at success
      obtain ⟨⟨decoded, reader, values⟩, decodes, success⟩ := bind_eq_ok.mp success
      dsimp only at success
      split at success
      · cases success
      next isRead =>
      cases success
      have length : values.length = table.columns.length :=
        (length_decodeColumns decodes).trans length_replicate
      have others : ∀ ordinal, ordinal ∉ table.bodyColumns → values[ordinal]? =
            (replicate table.columns.length Value.null)[ordinal]? :=
        fun _ outside => getElem?_decodeColumns_of_notMem outside decodes
      refine ⟨values, length, rfl, others, fun wanted => ?_⟩
      have partly := decodeColumns_narrow wanted decodes
      rw [narrow_replicate_null] at partly
      split
      · next unwanted =>
          have noneIn : ∀ ordinal ∈ table.bodyColumns, ordinal ∉ wanted := by
            simpa using unwanted
          rw [narrow_eq_of_unwanted noneIn length others]
      · rw [partly]
        exact if_neg isRead

theorem getElem?_fillKey_congr
    (table : TableDef) (primaryKey : List Value) {first second : List Value}
    {place : Ordinal}
    (same : first[place]? = second[place]?) :
    (fillKey table primaryKey first)[place]? =
      (fillKey table primaryKey second)[place]? := by
  rw [fillKey, fillKey]
  induction table.primaryKey.zip primaryKey generalizing first second with
  | nil => exact same
  | cons pair rest ih =>
      refine ih ?_
      have ends : first.length ≤ place ↔ second.length ≤ place := by
        rw [← getElem?_eq_none_iff, ← getElem?_eq_none_iff, same]
      have inside : place < first.length ↔ place < second.length :=
        Nat.not_le.symm.trans ((not_congr ends).trans Nat.not_le)
      simp only [getElem?_set, same]
      by_cases isPlace : pair.1 = place
      · simp [isPlace, inside]
      · simp [isPlace]

/-- A body that is decoded whole is decoded to the wanted columns of the row and
its key, whatever is wanted. -/
theorem decodeRowColumns_restrict
    (wellFormed : table.WellFormed)
    {body : Bytes} {row : Row}
    (success : decodeRow table primaryKey body = .ok row)
    (wanted : ColumnSet) :
    decodeRowColumns table primaryKey body (some wanted) =
      .ok (row.restrict table wanted) := by
  obtain ⟨values, length, rfl, others, partly⟩ := exists_values_of_decodeRow success
  rw [partly wanted, Row.restrict]
  refine congrArg (fun values => Except.ok (Row.mk values)) ?_
  apply ext_getElem?
  intro place
  rw [getElem?_map]
  by_cases inside : place < table.columns.length
  · have inWhole : place < (fillKey table primaryKey values).length := by
      rw [length_fillKey, length]
      exact inside
    have whole : (fillKey table primaryKey values)[place]? =
        some (Row.valueOrNull ⟨fillKey table primaryKey values⟩ place) := by
      rw [Row.valueOrNull, Row.get, getElem?_eq_getElem inWhole]
      rfl
    rw [getElem?_range inside, Option.map_some]
    by_cases inKey : place ∈ table.primaryKey
    · have outside : place ∉ table.bodyColumns := fun member =>
        (wellFormed.mem_bodyColumns.mp member).2 inKey
      have null : values[place]? = some .null := by
        rw [others place outside, getElem?_replicate_of_lt inside]
      have same : (narrow wanted values)[place]? = values[place]? := by
        rw [getElem?_narrow, null]
        simp
      rw [getElem?_fillKey_congr table primaryKey same, whole]
      simp [inKey]
    · have untouched : ∀ values : List Value,
          (fillKey table primaryKey values)[place]? = values[place]? := by
        intro values
        refine getElem?_foldl_set_of_notMem Prod.fst Prod.snd ?_ values
        rintro ⟨ordinal, value⟩ member rfl
        exact inKey (of_mem_zip member).1
      rw [untouched, getElem?_narrow, ← untouched values, whole]
      simp [inKey]
  · rw [getElem?_eq_none, getElem?_eq_none]
    · rfl
    · rw [length_range]
      omega
    · rw [length_fillKey, length_narrow, length]
      omega

/-- Decoding some columns agrees with decoding them all: whatever body a whole
decode succeeds on, a decode of any set of columns succeeds, with the same
values in those columns and the key's, and nulls in the others. -/
theorem decodeRowColumns_agrees
    {builder : TableBuilder} {table : TableDef}
    (built : builder.build = .ok table)
    {primaryKey : List Value} {body : Bytes} {row : Row}
    (success : decodeRow table primaryKey body = .ok row)
    (wanted : ColumnBits) :
    ∃ found : Row,
      decodeRowColumns table primaryKey body (some wanted.columns) = .ok found ∧
      found.values.length = row.values.length ∧
      ∀ ordinal < row.values.length, found.values[ordinal]? =
          if wanted.contains ordinal = true ∨ ordinal ∈ table.primaryKey then
            row.values[ordinal]?
          else
            some .null := by
  have wellFormed := TableBuilder.build_wellFormed built
  obtain ⟨values, length, isRow, _, _⟩ := exists_values_of_decodeRow success
  have width : row.values.length = table.columns.length := by
    rw [isRow, length_fillKey, length]
  refine ⟨row.restrict table wanted.columns,
    decodeRowColumns_restrict wellFormed success wanted.columns, ?_, ?_⟩
  · rw [length_restrict, width]
  · intro ordinal inside
    have found : row.values[ordinal]? = some (row.valueOrNull ordinal) := by
      rw [Row.valueOrNull, Row.get, getElem?_eq_getElem inside]
      rfl
    rw [Row.restrict, getElem?_map,
      getElem?_range (width ▸ inside), Option.map_some, found]
    simp only [ColumnBits.mem_columns]
    split <;> rfl

/-! ## A table of books -/

/-- A table of books with three columns in its bodies. -/
def booksBuilder : TableBuilder where
  id := 1
  name := "books"
  columns := [
    { name := "id", type := .i64 },
    { name := "title", type := .str },
    { name := "pages", type := .i64, nullable := true },
    { name := "sold", type := .u64 }]
  primaryKey := ["id"]

/-- The table of books. -/
def books : TableDef where
  id := 1
  name := "books"
  columns := booksBuilder.columns.map ColumnSpec.toColumn
  primaryKey := [0]
  bodyColumns := [1, 2, 3]
  storedColumns := [1, 2, 3]
  indexes := []
  checks := []
  foreignKeys := []
  tenantColumn := none
  softDelete := none
  schemaVersion := 0

/-- The copies sold are read past a title and a null, which are left out. -/
theorem decodeRowColumns_agrees_books :
    ∃ found : Row, decodeRowColumns books [.i64 7]
          (encodeBody books ⟨[.i64 7, .str "ab", .null, .u64 300]⟩)
          (some (ColumnBits.ofList [3]).columns) = .ok found ∧
      found.values.length = 4 ∧
      ∀ ordinal < 4, found.values[ordinal]? =
          if (ColumnBits.ofList [3]).contains ordinal = true ∨
              ordinal ∈ books.primaryKey then
            [Value.i64 7, .str "ab", .null, .u64 300][ordinal]?
          else
            some .null :=
  decodeRowColumns_agrees (show booksBuilder.build = .ok books from rfl)
    (show decodeRow _ _ _ = .ok ⟨[.i64 7, .str "ab", .null, .u64 300]⟩ from rfl)
    (ColumnBits.ofList [3])

end SlateOrm
