import SlateOrm.KeySpace
import SlateOrm.QueryRows

namespace SlateOrm

open List Option MatchContext

/-!
# What a query makes of an index entry

An entry of an index is decoded to what it was made of.  When the entries of an
index hold everything that a query needs, what the query makes of an entry is
what it makes of the row that the entry is of.
-/

section

variable [Platform]

/-! ## Entries of stored rows -/

section

variable
  {table : TableDef}
  (wellFormed : table.WellFormed)
  {row : Row}
  (valid : row.validate table = .ok ())

include wellFormed valid

theorem typedAs_project
    {ordinals : List Ordinal}
    (declared : ∀ ordinal ∈ ordinals, ∃ column, table.column ordinal = some column) :
    TypedAs (row.project ordinals) (table.keyTypes ordinals) := by
  rw [Row.project, TypedAs, TableDef.keyTypes, forall₂_map_left_iff,
    forall₂_map_right_iff, forall₂_same]
  intro ordinal isOrdinal
  obtain ⟨column, found⟩ := declared ordinal isOrdinal
  rw [found]
  exact (Row.holds_of_validate wellFormed valid found).typed

theorem typedAs_primaryKeyValues :
    TypedAs (row.primaryKeyValues table) table.primaryKeyTypes := by
  refine typedAs_project wellFormed valid (fun ordinal inKey => ?_)
  obtain ⟨column, found, -⟩ := wellFormed.key ordinal inKey
  exact ⟨column, found⟩

end

section

variable
  {table : TableDef}
  {row : Row}
  (valid : row.validate table = .ok ())
  {index : IndexDef}
  (inIndexes : index ∈ table.indexes)

include valid inIndexes

theorem typed_of_expression
    {declared : IndexExpression}
    (isExpression : index.expression = some declared) :
    (declared.compute.value row).valueType = some declared.produces ∨
      declared.compute.value row = .null := by
  have width := Row.width_of_validate valid
  rw [Row.validate, if_neg (not_not.mpr width)] at valid
  obtain ⟨_, -, checked⟩ := bind_eq_ok.mp valid
  have passes := checkEach_eq_ok checked index inIndexes
  rw [checkExpression, isExpression] at passes
  dsimp only at passes
  cases isType : (declared.compute.value row).valueType with
  | none => exact Or.inr (Value.eq_null_of_valueType isType)
  | some actual =>
      rw [isType] at passes
      dsimp only at passes
      split at passes
      · cases passes
      · next same => exact Or.inl (congrArg some (not_not.mp same))

variable (wellFormed : table.WellFormed)

include wellFormed

/-- What an index holds of a row has the types of the index. -/
theorem typedAs_of_mem_keySets
    {values : List Value}
    (isSet : values ∈ index.keySets row) :
    TypedAs values (table.indexKeyTypes index) := by
  have indexWellFormed := wellFormed.indexes index inIndexes
  rw [IndexDef.keySets] at isSet
  split at isSet
  · obtain rfl := mem_singleton.mp isSet
    rw [IndexDef.keyValues, TableDef.indexKeyTypes]
    cases isExpression : index.expression with
    | some declared =>
        exact .cons (typed_of_expression valid inIndexes isExpression) .nil
    | none =>
        dsimp only
        refine typedAs_project wellFormed valid (fun ordinal isOrdinal => ?_)
        obtain ⟨column, isColumn, rfl⟩ := mem_map.mp isOrdinal
        obtain ⟨declared, found, -⟩ := indexWellFormed.usable column isColumn
        exact ⟨declared, found⟩
  · next isText =>
      obtain ⟨-, noExpression, entry, declared, isColumns, found, isString⟩ :=
        indexWellFormed.text (by simpa using isText)
      have isDeclared : table.column entry.ordinal = some declared := found
      have isTypes : table.indexKeyTypes index = [.str] := by
        rw [TableDef.indexKeyTypes, noExpression, isColumns]
        simp only [TableDef.keyTypes, map_cons, map_nil, isDeclared, isString]
      rw [isTypes]
      rw [isColumns, head?_cons] at isSet
      dsimp only at isSet
      split at isSet
      · obtain ⟨term, -, rfl⟩ := mem_map.mp isSet
        exact .cons (Or.inl rfl) .nil
      · cases isSet

theorem flat_of_plain
    (plain : index.expression = none) :
    ∀ value ∈ index.keyValues row, value.flat = true := by
  intro value isHeld
  refine Value.flat_of_isKeyable ((Row.keyable_of_validate wellFormed
    valid).indexed index inIndexes ?_ value isHeld)
  intro declared isExpression
  rw [plain] at isExpression
  cases isExpression

omit valid inIndexes wellFormed in
theorem flat_of_mem_keySets
    (flat : ∀ value ∈ index.keyValues row, value.flat = true)
    {values : List Value}
    (isSet : values ∈ index.keySets row) :
    ∀ value ∈ values, value.flat = true := by
  rw [IndexDef.keySets] at isSet
  split at isSet
  · rwa [mem_singleton.mp isSet]
  · split at isSet
    · cases isSet
    · split at isSet
      · obtain ⟨term, -, rfl⟩ := mem_map.mp isSet
        intro value member
        rw [mem_singleton.mp member]
        rfl
      · cases isSet

end

/-- A row of a catalog under values that an index holds of it. -/
def CatalogRow.keyedEntry {catalog : Catalog} (wellFormed : catalog.WellFormed)
    (record : CatalogRow catalog)
    {index : IndexDef}
    (inIndexes : index ∈ record.table.indexes)
    {values : List Value}
    (isSet : values ∈ index.keySets record.row) :
    KeyedEntry catalog where
  table := record.table
  declared := record.inCatalog
  primaryKey := record.row.primaryKeyValues record.table
  typedKey := typedAs_primaryKeyValues (wellFormed.tables _ record.inCatalog)
    record.valid
  index := index
  indexed := inIndexes
  values := values
  typedValues := typedAs_of_mem_keySets record.valid inIndexes
    (wellFormed.tables _ record.inCatalog) isSet

theorem decodeIndexEntry_of_entry
    {catalog : Catalog}
    (wellFormed : catalog.WellFormed)
    (record : CatalogRow catalog) {index : IndexDef}
    (flat : ∀ value ∈ index.keyValues record.row, value.flat = true)
    (inIndexes : index ∈ record.table.indexes)
    {entry : Keys.IndexEntry}
    (member : entry ∈ admittedEntries record.table index record.row) :
    ∃ values ∈ index.keySets record.row, ∃ primaryKey,
      Keys.decodeIndexEntry record.table index entry.key entry.value =
          .ok (values.map Value.decoded, primaryKey) ∧
        primaryKey.map Value.canonical =
          (record.row.primaryKeyValues record.table).map Value.canonical := by
  obtain ⟨-, values, isSet, rfl⟩ := mem_admittedEntries.mp member
  let keyed := record.keyedEntry wellFormed inIndexes isSet
  refine ⟨values, isSet, _, keyed.decode_of_flat wellFormed (flat_of_mem_keySets flat
    isSet), (Value.beq_list_iff_canonical _ _).mp (beq_decoded (fun value isKey => ?_))⟩
  exact Value.fits_of_isKeyable (keyed.typedKey.isKeyable
    (wellFormed.tables _ record.inCatalog) value isKey)

/-! ## Covering entries -/

/-- What a covering entry supplies of the columns a query needs. -/
structure MatchContext.Covers (context : MatchContext) (index : IndexDef) :
    Prop where
  plain : index.text = false
  needed : ∀ columns, context.needed = .some columns →
    ∀ column ∈ columns, column < context.table.columns.length →
      holds context.table index column = true
  all : context.needed = .all → ∀ column, column < context.table.columns.length →
      holds context.table index column = true
  computed : ∀ place scalar, context.compute[place]? = some scalar →
    (∀ columns, context.needed = .some columns →
      context.table.columns.length + place ∈ columns) →
    expressionPosition index context.compute = some place ∨
      ∀ column ∈ scalar.columns, column < context.table.columns.length →
        holds context.table index column = true

omit [Platform] in
theorem getElem?_availableComputes
    (context : MatchContext) (index : IndexDef) {available : List Bool}
    (rest : List Scalar) {place : Nat}
    (inside : place < available.length) :
    (availableComputes context index available rest)[place]? = available[place]? := by
  induction rest generalizing available with
  | nil => rfl
  | cons scalar rest ih =>
      rw [availableComputes, ih (by simp; omega), getElem?_append_left inside]

omit [Platform] in
/-- A computed column that can be had is held or reads what is held. -/
theorem supplied_of_availableComputes
    (context : MatchContext) (index : IndexDef) (available : List Bool)
    {rest : List Scalar} {place : Nat} {scalar : Scalar}
    (found : rest[place]? = some scalar)
    (ready : ((availableComputes context index available
      rest)[available.length + place]?).getD true = true) :
    expressionPosition index context.compute = some (available.length + place) ∨
      ∀ column ∈ scalar.columns, column < context.table.columns.length →
        holds context.table index column = true := by
  induction rest generalizing available place with
  | nil => cases found
  | cons first rest ih =>
      rw [availableComputes] at ready
      cases place with
      | zero =>
          obtain rfl := some.inj found
          rw [getElem?_availableComputes context index rest (by simp),
            Nat.add_zero, getElem?_concat_length, getD_some,
            Bool.or_eq_true] at ready
          refine ready.imp (fun held => ?_) (fun held column isRead inside => ?_)
          · simpa using held
          · have here := all_eq_true.mp held column isRead
            have within : column < context.width := inside
            rwa [if_pos within] at here
      | succ place =>
          generalize isNext : available ++ [_] = next at ready
          have later := ih next found
          rw [← isNext, length_append, length_singleton,
            Nat.add_assoc, Nat.add_comm 1, isNext] at later
          exact later ready

omit [Platform] in
/-- What the planner takes for covering supplies what the query needs. -/
theorem MatchContext.covers_of_covers
    {context : MatchContext} {index : IndexDef}
    (isCovering : covers context index = true) :
    context.Covers index := by
  rw [covers.eq_def] at isCovering
  split at isCovering
  · cases isCovering
  · next notText =>
      refine ⟨by simpa using notText, ?_, ?_, ?_⟩
      · intro columns isNeeded column member inside
        rw [isNeeded] at isCovering
        have here := all_eq_true.mp isCovering column member
        have within : column < context.width := inside
        rwa [if_pos within] at here
      · intro isNeeded column inside
        rw [isNeeded] at isCovering
        exact all_eq_true.mp isCovering column (mem_range.mpr inside)
      · intro place scalar found isNeeded
        cases needs : context.needed with
        | all =>
            refine Or.inr (fun column _ inside => ?_)
            rw [needs] at isCovering
            exact all_eq_true.mp isCovering column (mem_range.mpr inside)
        | some columns =>
            rw [needs] at isCovering
            have here := all_eq_true.mp isCovering _ (isNeeded columns needs)
            have outside : ¬context.table.columns.length + place <
                context.width := by
              rw [width]
              omega
            rw [if_neg outside, width, Nat.add_sub_cancel_left] at here
            have supplied := supplied_of_availableComputes context index [] found
            rw [length_nil, Nat.zero_add] at supplied
            exact supplied here

/-- The entries of an index hold everything that rows are made of. -/
structure RowShape.CoveredBy (shape : RowShape) (index : IndexDef) :
    Prop where
  plain : index.text = false
  fromEntry : shape.fromEntry = expressionPosition index shape.compute
  held : ∀ ordinal ∈ shape.decodeColumns, ordinal ∉ shape.transient →
    holds shape.table index ordinal = true
  blanked : ∀ ordinal ∈ shape.transient, shape.compute ≠ []
  computed : ∀ place scalar, shape.compute[place]? = some scalar →
    expressionPosition index shape.compute = some place ∨
      ∀ column ∈ scalar.columns, column < shape.table.columns.length →
        holds shape.table index column = true

section

variable
  {shape : RowShape}
  (wellFormed : shape.table.WellFormed)
  {index : IndexDef}
  (inIndexes : index ∈ shape.table.indexes)
  {row : Row}
  (fits : row.Fits)
  {indexed primaryKey : List Value}
  (sameLength : indexed.length = index.keyDirections.length)
  (sameKey : primaryKey.map Value.canonical =
    (row.primaryKeyValues shape.table).map Value.canonical)

include wellFormed inIndexes fits sameLength sameKey

/-- The row of an entry agrees with the row that is restricted to its columns. -/
theorem RowShape.agreeUpTo_entry
    (sameValues : indexed.map Value.canonical = (index.keyValues row).map Value.coded) :
    AgreeUpTo shape.table.columns.length
      (fun ordinal => holds shape.table index ordinal = true ∨
        ordinal ∉ shape.decodeColumns)
      (rowFromIndexEntry shape.table index indexed primaryKey
        shape.decodeColumns).values
      (row.restrict shape.table shape.decodeColumns).values := by
  refine ⟨by rw [length_rowFromIndexEntry, length_restrict], ?_⟩
  intro ordinal isKnown
  by_cases inRange : ordinal < shape.table.columns.length
  · have equal : (Row.valueOrNull (rowFromIndexEntry shape.table index indexed
        primaryKey shape.decodeColumns) ordinal).canonical =
        ((row.restrict shape.table shape.decodeColumns).valueOrNull
          ordinal).canonical := by
      rw [valueOrNull_restrict inRange]
      by_cases isKept : ordinal ∈ shape.decodeColumns ∨ ordinal ∈ shape.table.primaryKey
      · rw [if_pos isKept]
        refine canonical_valueOrNull_entry wellFormed inIndexes fits
          sameLength sameValues sameKey inRange ?_ isKept
        rcases isKnown inRange with isHeld | notDecoded
        · exact isHeld
        · rw [holds, Bool.or_eq_true]
          exact Or.inr (contains_iff_mem.mpr (isKept.resolve_left notDecoded))
      · obtain ⟨notDecoded, outside⟩ := not_or.mp isKept
        rw [if_neg isKept, valueOrNull_entry_of_notMem index indexed
          primaryKey inRange outside notDecoded]
    have inEntry : ordinal < (rowFromIndexEntry shape.table index indexed
        primaryKey shape.decodeColumns).values.length := by
      rw [length_rowFromIndexEntry]
      exact inRange
    have inRestricted : ordinal < (row.restrict shape.table
        shape.decodeColumns).values.length := by
      rw [length_restrict]
      exact inRange
    rw [Row.valueOrNull, Row.valueOrNull, Row.get, Row.get,
      getElem?_eq_getElem inEntry, getElem?_eq_getElem inRestricted] at equal
    rw [getElem?_eq_getElem inEntry, getElem?_eq_getElem inRestricted]
    exact congrArg some equal
  · rw [getElem?_eq_none (by rw [length_rowFromIndexEntry]; omega),
      getElem?_eq_none (by rw [length_restrict]; omega)]

end

/-- The value that an entry holds for a computed column. -/
def RowShape.heldValue (shape : RowShape) (indexed : List Value) :
    Option (Nat × Value) := do
  let position ← shape.fromEntry
  let value ← indexed.head?
  return (position, value)

/-! ## Rows of entries -/

/-- The row that is made of an entry alone. -/
def RowShape.ofEntry (shape : RowShape) (index : IndexDef)
    (indexed primaryKey : List Value) : Row :=
  extendRow (rowFromIndexEntry shape.table index indexed primaryKey shape.decodeColumns)
    shape.compute shape.transient (shape.heldValue indexed)

/--
What an index holds of a row, if it is a computed column, is held in full and
is what the query computes after the columns before it.
-/
def IndexDef.HoldsComputed (index : IndexDef) (compute : List Scalar)
    (row : Row) : Prop :=
  ∀ position, expressionPosition index compute = some position →
    ∀ scalar, compute[position]? = some scalar →
      ∀ value ∈ index.keyValues row, value.Recodes ∧
        value.canonical = (scalar.evaluate (fun ordinal =>
          (appendComputed none 0 (compute.take position)
            row.values)[ordinal]?)).canonical

variable {index : IndexDef} {compute : List Scalar}

omit [Platform] in
theorem exists_of_expressionPosition
    {position : Nat}
    (isPosition : expressionPosition index compute = some position) :
    ∃ expression scalar, indexExpression index = some expression ∧
        compute[position]? = some scalar ∧ scalar.same expression = true := by
  obtain ⟨expression, isScalar, isPosition⟩ := bind_eq_some_iff.mp isPosition
  obtain ⟨inside, same, -⟩ := findIdx?_eq_some_iff_getElem.mp isPosition
  exact ⟨expression, _, isScalar, getElem?_eq_getElem inside, same⟩

/--
An index whose expression reads columns of its table, and makes values that are
held in full, holds what the query computes.
-/
theorem IndexDef.RegularFor.holdsComputed
    {table : TableDef} (regular : index.RegularFor table compute) {row : Row}
    (width : row.values.length = table.columns.length)
    (recodes : ∀ value ∈ index.keyValues row, value.Recodes) :
    index.HoldsComputed compute row := by
  intro position isPosition scalar found value isHeld
  refine ⟨recodes value isHeld, ?_⟩
  obtain ⟨expression, scalar', isScalar, found', same⟩ :=
    exists_of_expressionPosition isPosition
  cases found.symm.trans found'
  rw [keyValues_of_indexExpression isScalar, mem_singleton] at isHeld
  subst isHeld
  have isSome : (expressionPosition index compute).isSome = true := by
    rw [isPosition]
    rfl
  obtain ⟨extra, isExtra⟩ :=
    exists_appendComputed none 0 (compute.take position) row.values
  have unread : expression.evaluate row.get =
      expression.evaluate (fun ordinal => (row.values ++ extra)[ordinal]?) := by
    refine Scalar.evaluate_of_columns expression (fun column isRead => ?_)
    have inside := regular.expression isSome expression isScalar column isRead
    exact (getElem?_append_left (width ▸ inside)).symm
  rw [isExtra, Scalar.evaluate_of_same _ expression same, unread]

/-- What is held in full is shown as the query computes it. -/
theorem IndexDef.HoldsComputed.canonical_shown
    {table : TableDef} {row : Row}
    (width : row.values.length = table.columns.length)
    (holdsComputed : index.HoldsComputed compute row)
    (ordinal : Ordinal) :
    (index.shown table compute row ordinal).map Value.canonical =
      ((extendRow row compute [] none).get ordinal).map Value.canonical := by
  rw [shown]
  split
  · next position isPosition =>
      split
      · next isHere =>
          obtain ⟨_, scalar, isScalar, found, -⟩ :=
            exists_of_expressionPosition isPosition
          have single := keyValues_of_indexExpression isScalar row
          rw [single, head?_cons, isHere, extendRow_eq, Row.get, ← width,
            getElem?_appendComputed_place none 0 row.values found]
          exact congrArg some (holdsComputed position isPosition scalar found _
            (single ▸ mem_singleton.mpr rfl)).2
      · rfl
  · rfl

theorem recodes_of_holdsComputed
    {table : TableDef}
    (wellFormed : table.WellFormed)
    {row : Row}
    (valid : row.validate table = .ok ())
    {index : IndexDef}
    (inIndexes : index ∈ table.indexes)
    {compute : List Scalar}
    (isRead : index.expression = none ∨
      (expressionPosition index compute).isSome = true)
    (holdsComputed : index.HoldsComputed compute row) :
    ∀ value ∈ index.keyValues row, value.Recodes := by
  rcases isRead with noExpression | isSome
  · intro value isHeld
    have ordered : index.Ordered := by
      intro declared isDeclared
      rw [noExpression] at isDeclared
      cases isDeclared
    have keyable := (Row.keyable_of_validate wellFormed valid).indexed index
      inIndexes ordered value isHeld
    exact ⟨Value.flat_of_isKeyable keyable, Value.fits_of_isKeyable keyable⟩
  · obtain ⟨position, isPosition⟩ := isSome_iff_exists.mp isSome
    obtain ⟨expression, scalar, -, found, -⟩ := exists_of_expressionPosition isPosition
    exact fun value isHeld =>
      (holdsComputed position isPosition scalar found value isHeld).1

theorem mem_keySets_of_plain
    (plain : index.text = false)
    {row : Row} {values : List Value} :
    values ∈ index.keySets row ↔ values = index.keyValues row := by
  rw [IndexDef.keySets, plain]
  exact mem_singleton

section

variable
  {shape : RowShape}
  (sound : shape.Sound)
  {row : Row}
  (width : row.values.length = shape.table.columns.length)
  {scalar : Scalar}
  {place : Nat}

include sound width

theorem RowShape.canonical_evaluate_restrict
    (found : shape.compute[place]? = some scalar) :
    (scalar.evaluate (fun ordinal =>
        (appendComputed none 0 (shape.compute.take place) (row.restrict shape.table
            shape.decodeColumns).values)[ordinal]?)).canonical =
      (scalar.evaluate (fun ordinal =>
        (appendComputed none 0 (shape.compute.take place)
          row.values)[ordinal]?)).canonical := by
  have agree := agreeUpTo_appendComputed
    (fun earlier (isEarlier : earlier ∈ shape.compute.take place) =>
      sound.computed earlier (mem_of_mem_take isEarlier))
    (agreeUpTo_restrict width shape.decodeColumns)
  refine AgreeOn.evaluate (fun column isRead => agree.equal column ?_)
  exact sound.computed scalar (mem_of_getElem? found) column isRead

/-- A held column is supplied when it is what the query computes. -/
theorem RowShape.suppliedAt_entry
    {index : IndexDef} (covered : shape.CoveredBy index)
    (holdsComputed : index.HoldsComputed shape.compute row)
    {indexed : List Value}
    (sameValues : indexed.map Value.canonical =
      (index.keyValues row).map Value.canonical)
    (found : shape.compute[place]? = some scalar) :
    SuppliedAt shape.table.columns.length
      (fun ordinal => holds shape.table index ordinal = true ∨
        ordinal ∉ shape.decodeColumns)
      (appendComputed none 0 (shape.compute.take place)
        (row.restrict shape.table shape.decodeColumns).values)
      (shape.heldValue indexed) place scalar := by
  by_cases isHere : expressionPosition index shape.compute = some place
  · obtain ⟨expression, -, isScalar, -, -⟩ := exists_of_expressionPosition isHere
    have isKey := keyValues_of_indexExpression isScalar row
    obtain ⟨-, equal⟩ := holdsComputed place isHere scalar found _
      (isKey ▸ mem_singleton.mpr rfl)
    rw [isKey, map_singleton] at sameValues
    obtain ⟨value, isIndexed, same⟩ := map_eq_singleton_iff.mp sameValues
    refine Or.inl ⟨value, ?_, ?_⟩
    · rw [heldValue, covered.fromEntry, isHere, isIndexed]
      rfl
    · rw [same, equal, canonical_evaluate_restrict sound width found]
  · refine Or.inr ⟨fun value isHeld => ?_, fun column isRead inRange => ?_⟩
    · rw [heldValue, covered.fromEntry] at isHeld
      obtain ⟨position, isPosition, isHeld⟩ := bind_eq_some_iff.mp isHeld
      obtain ⟨held, -, isHeld⟩ := bind_eq_some_iff.mp isHeld
      cases isHeld
      exact isHere isPosition
    · exact Or.inl ((covered.computed place scalar found).resolve_left isHere
        column isRead inRange)

end

/-- The row of an entry is what the query makes of the row it is of. -/
theorem RowShape.same_ofEntry
    {shape : RowShape}
    (sound : shape.Sound)
    (wellFormed : shape.table.WellFormed)
    {row : Row}
    (valid : row.validate shape.table = .ok ())
    (fits : row.Fits) {index : IndexDef} (covered : shape.CoveredBy index)
    (inIndexes : index ∈ shape.table.indexes)
    (recodes : ∀ value ∈ index.keyValues row, value.Recodes)
    (holdsComputed : index.HoldsComputed shape.compute row)
    {indexed primaryKey : List Value}
    (sameValues : indexed.map Value.canonical =
      (index.keyValues row).map Value.canonical)
    (sameKey : primaryKey.map Value.canonical =
      (row.primaryKeyValues shape.table).map Value.canonical) :
    (shape.ofEntry index indexed primaryKey).Same (shape.output row) := by
  have sameLength : indexed.length = index.keyDirections.length := by
    have lengths := congrArg length sameValues
    rw [length_map, length_map] at lengths
    rw [lengths]
    exact length_of_mem_keySets (wellFormed.indexes index inIndexes)
      ((mem_keySets_of_plain covered.plain).mpr rfl)
  have sameCoded : indexed.map Value.canonical =
      (index.keyValues row).map Value.coded := by
    rw [sameValues]
    exact map_congr_left (fun value isHeld =>
      (Value.coded_of_fits (recodes value isHeld).fits).symm)
  have width := Row.width_of_validate valid
  refine same_extendRow_of_agreeUpTo (agreeUpTo_appendComputed_of_suppliedAt
    (fun place scalar found => ?_) (agreeUpTo_entry wellFormed inIndexes
    fits sameLength sameKey sameCoded)) ?_
  · rw [Nat.zero_add]
    exact suppliedAt_entry sound width covered holdsComputed sameValues found
  · intro ordinal _
    by_cases isTransient : ordinal ∈ shape.transient
    · exact Or.inr ⟨covered.blanked ordinal isTransient, isTransient⟩
    · refine Or.inl ?_
      by_cases isDecoded : ordinal ∈ shape.decodeColumns
      · exact Or.inl (covered.held ordinal isDecoded isTransient)
      · exact Or.inr isDecoded

/-- What an index holds of a row is read as what a query makes of the row. -/
structure IndexDef.Serves (index : IndexDef) (compute : List Scalar)
    (row : Row) (covering : Bool) : Prop where
  flat : ∀ value ∈ index.keyValues row, value.flat = true
  computed : covering = true → index.HoldsComputed compute row

theorem IndexDef.serves_of_plain
    {table : TableDef}
    (wellFormed : table.WellFormed)
    {row : Row}
    (valid : row.validate table = .ok ())
    {index : IndexDef}
    (inIndexes : index ∈ table.indexes)
    (plain : index.expression = none)
    (compute : List Scalar) (covering : Bool) :
    index.Serves compute row covering := by
  refine ⟨flat_of_plain valid inIndexes wellFormed plain, ?_⟩
  intro _ position isPosition
  rw [expressionPosition_of_plain plain] at isPosition
  cases isPosition

/-- A covering entry is materialised to what the query makes of its row. -/
theorem RowShape.materialiseEntry_entry
    {catalog : Catalog}
    (wellFormed : catalog.WellFormed)
    (record : CatalogRow catalog) {shape : RowShape}
    (isTable : record.table = shape.table)
    (sound : shape.Sound)
    {index : IndexDef} (covered : shape.CoveredBy index)
    (isRead : index.expression = none ∨
      (expressionPosition index shape.compute).isSome = true)
    (holdsComputed : index.HoldsComputed shape.compute record.row)
    (inIndexes : index ∈ shape.table.indexes)
    {entry : Keys.IndexEntry}
    (member : entry ∈ admittedEntries shape.table index record.row) :
    ∃ found, materialiseEntry shape index ⟨entry.key, entry.value⟩ = .ok found ∧
      found.map Row.canonical = (shape.answer record.row).map Row.canonical := by
  obtain ⟨table, row, inCatalog, valid, fits⟩ := record
  obtain rfl : table = shape.table := isTable
  have tableFormed := wellFormed.tables _ inCatalog
  have recodes := recodes_of_holdsComputed tableFormed valid inIndexes isRead
    holdsComputed
  obtain ⟨values, isSet, primaryKey, decoded, sameKey⟩ :=
    decodeIndexEntry_of_entry wellFormed ⟨shape.table, row, inCatalog, valid,
    fits⟩ (fun value isHeld => (recodes value isHeld).flat) inIndexes member
  obtain rfl := (mem_keySets_of_plain covered.plain).mp isSet
  refine ⟨_, bind_eq_ok.mpr ⟨_, decoded, rfl⟩, canonical_answer sound
    (Row.width_of_validate valid) ?_⟩
  exact same_ofEntry sound tableFormed valid fits covered inIndexes recodes
    holdsComputed ((Value.beq_list_iff_canonical _ _).mp (beq_decoded
      (fun value isHeld => (recodes value isHeld).fits))) sameKey

end

end SlateOrm
