import SlateOrm.KeyLayout

namespace SlateOrm

open List Keys

/-!
# What is kept of a row

A row's key, its index entries and its body are the same for equal rows, and
rows that fit and are kept alike are equal.  A row that is read back from its
key and its body equals the one that was written.
-/

/-! ## Equal rows -/

namespace Row

/-- A row in which no vector is longer than its count can say. -/
def Fits (row : Row) : Prop := ∀ value ∈ row.values, value.fits = true

theorem Fits.valueOrNull
    {row : Row} (fits : row.Fits) (ordinal : Ordinal) :
    (row.valueOrNull ordinal).fits = true := by
  rw [Row.valueOrNull, Row.get]
  cases found : row.values[ordinal]? with
  | none => rfl
  | some value => exact fits value (mem_of_getElem? found)

namespace Same

variable {first second third : Row}

theorem refl (row : Row) : row.Same row :=
  rfl

theorem symm (same : first.Same second) : second.Same first :=
  Eq.symm same

theorem trans (same : first.Same second) (same' : second.Same third) :
    first.Same third :=
  Eq.trans same same'

theorem sameColumns (same : first.Same second) :
    SameColumns first.get second.get := by
  intro ordinal
  have mapped := congrArg (fun values => values[ordinal]?) same
  simp only [getElem?_map] at mapped
  exact mapped

theorem valueOrNull
    (same : first.Same second) (ordinal : Ordinal) :
    (first.valueOrNull ordinal).canonical = (second.valueOrNull ordinal).canonical := by
  rw [Row.valueOrNull, Row.valueOrNull]
  rcases same.sameColumns.cases ordinal with
    ⟨left, right⟩ | ⟨value, value', left, right, equal⟩
  · rw [left, right]
  · rw [left, right]
    exact equal

theorem project
    (same : first.Same second) (ordinals : List Ordinal) :
    (first.project ordinals).map Value.canonical =
      (second.project ordinals).map Value.canonical := by
  rw [Row.project, Row.project, map_map, map_map]
  exact map_congr_left (fun ordinal _ => same.valueOrNull ordinal)

end Same

theorem fitsList_canonical_of_forall
    {values : List Value}
    (each : ∀ value ∈ values, value.canonical.fits = value.fits) :
    Value.fitsList (Value.canonicalList values) = Value.fitsList values := by
  induction values with
  | nil => rfl
  | cons value rest ih =>
      simp only [Value.canonicalList, Value.fitsList, each value (mem_cons_self ..), ih
        (fun other member => each other (mem_cons_of_mem _ member))]

theorem fits_canonical
    (value : Value) :
    value.canonical.fits = value.fits := by
  induction value using Value.induction with
  | scalar value notArray =>
      cases value with
      | u64 number =>
          rcases Value.ofI128_toNat number with ⟨signed, same, -⟩ | ⟨same, -⟩
          · rw [Value.canonical_u64, same]
            rfl
          · rw [Value.canonical_u64, same]
      | vector elements => simp only [Value.canonical, Value.fits, length_map]
      | array elements => exact absurd rfl (notArray elements)
      | _ => rfl
  | ofArray elements ih => exact fitsList_canonical_of_forall ih

theorem Same.fits
    {first second : Row} (same : first.Same second) (fits : second.Fits) :
    first.Fits := by
  intro value member
  obtain ⟨ordinal, found⟩ := mem_iff_getElem?.mp member
  rcases same.sameColumns.cases ordinal with
    ⟨left, _⟩ | ⟨left, right, isLeft, isRight, equal⟩
  · rw [Row.get, found] at left
    cases left
  · rw [Row.get, found] at isLeft
    cases isLeft
    rw [← fits_canonical, equal, fits_canonical]
    exact fits right (mem_of_getElem? isRight)

theorem same_of_valueOrNull
    {first second : Row}
    (sameLength : first.values.length = second.values.length)
    (equal : ∀ ordinal, ordinal < first.values.length →
      (first.valueOrNull ordinal).canonical = (second.valueOrNull ordinal).canonical) :
    first.Same second := by
  apply ext_getElem
  · simpa only [length_map] using sameLength
  · intro ordinal inFirst inSecond
    rw [length_map] at inFirst inSecond
    have here := equal ordinal inFirst
    rw [valueOrNull, valueOrNull, Row.get, Row.get, getElem?_eq_getElem inFirst,
      getElem?_eq_getElem inSecond] at here
    rw [getElem_map, getElem_map]
    exact here

theorem beq_iff_same
    (first second : Row) :
    (first == second) = true ↔ first.Same second :=
  Value.beq_list_iff_canonical first.values second.values

end Row

variable {directions : List Direction} {values values' : List Value}

/-- The key of values depends on their canonical forms only. -/
theorem encodeWith_congr
    (same : values.map Value.canonical = values'.map Value.canonical) :
    encodeWith values directions = encodeWith values' directions := by
  rw [← encodeWith_canonical values, same, encodeWith_canonical]

theorem encodeValue_ne_nil
    (direction : Direction) (value : Value) :
    encodeValue direction value ≠ [] := by
  intro isNil
  have begins : encodeValue direction value <+: encodeValue direction (.bool true) :=
    isNil ▸ nil_prefix
  have same := encodeValue_prefixFree begins
  have begins' : encodeValue direction value <+: encodeValue direction (.bool false) :=
    isNil ▸ nil_prefix
  rw [encodeValue_prefixFree begins', encodeValue_eq_iff] at same
  cases same

/-- Values with one encoding are coded alike. -/
theorem coded_of_encode
    (same : encodeWith values directions = encodeWith values' directions) :
    values.map Value.coded = values'.map Value.coded := by
  induction values generalizing values' directions with
  | nil =>
      cases values' with
      | nil => rfl
      | cons value' others' =>
          exact absurd (append_eq_nil_iff.mp same.symm).1 (encodeValue_ne_nil _ value')
  | cons value others ih =>
      cases values' with
      | nil =>
          exact absurd (append_eq_nil_iff.mp same).1 (encodeValue_ne_nil _ value)
      | cons value' others' =>
          obtain ⟨headSame, tailSame⟩ := encodeValue_append_inj same
          rw [map_cons, map_cons, ih tailSame]
          exact congrArg (· :: _) ((encodeValue_eq_iff _ _ _).mp headSame)

/-! ## Keys, entries and bodies of equal rows -/

namespace Row.Same

variable {first second : Row}

theorem rowKey
    (same : first.Same second) (table : TableDef) :
    rowKey table (first.primaryKeyValues table) =
      rowKey table (second.primaryKeyValues table) := by
  have sameKey : encode (first.primaryKeyValues table) =
      encode (second.primaryKeyValues table) :=
    encodeWith_congr (same.project table.primaryKey)
  rw [Keys.rowKey, Keys.rowKey, sameKey]

theorem encodeBody
    (same : first.Same second) (table : TableDef) :
    SlateOrm.encodeBody table first = SlateOrm.encodeBody table second := by
  have sameColumns : encode (first.project table.storedColumns) =
      encode (second.project table.storedColumns) :=
    encodeWith_congr (same.project table.storedColumns)
  rw [SlateOrm.encodeBody, SlateOrm.encodeBody, sameColumns]

variable [Platform]

section

variable
  (same : first.Same second)

include same

theorem truth
    (predicate : Predicate) :
    predicate.truth first = predicate.truth second := by
  cases predicate with
  | expr expression =>
      rw [Predicate.truth, Predicate.truth, Expr.evaluate, Expr.evaluate,
        Expr.evaluateOver_congr same.sameColumns expression]
  | custom judge respects => exact respects first second same

theorem computed
    (computed : Computed) :
    (computed.value first).canonical = (computed.value second).canonical := by
  cases computed with
  | scalar expression => exact Scalar.evaluate_congr same.sameColumns expression
  | custom compute respects => exact respects first second same

theorem admits
    (index : IndexDef) :
    index.admits first = index.admits second := by
  rw [IndexDef.admits, IndexDef.admits]
  cases index.predicate with
  | none => rfl
  | some predicate => simp only [same.truth predicate]

theorem keyValues
    (index : IndexDef) :
    (index.keyValues first).map Value.canonical =
      (index.keyValues second).map Value.canonical := by
  rw [IndexDef.keyValues, IndexDef.keyValues]
  cases index.expression with
  | none => exact same.project _
  | some expression => exact congrArg (fun value => [value]) (same.computed _)

theorem keySets
    (index : IndexDef) :
    (index.keySets first).map (map Value.canonical) =
      (index.keySets second).map (map Value.canonical) := by
  rw [IndexDef.keySets, IndexDef.keySets]
  split
  · exact congrArg (fun values => [values]) (same.keyValues index)
  · split
    · rfl
    · next column _ =>
        exact congrArg (map (map Value.canonical))
          (text_congr same.sameColumns column.ordinal
          (fun text => (tokenize text).map (fun term => [Value.str term])) [])

end

end Row.Same

theorem Keys.indexEntry_canonical
    (table : TableDef) (index : IndexDef) (values primaryKey : List Value) :
    indexEntry table index (values.map Value.canonical)
        (primaryKey.map Value.canonical) =
      indexEntry table index values primaryKey := by
  have sameNulls : (values.map Value.canonical).any Value.isNull =
        values.any Value.isNull := by
    simp only [any_map, Function.comp_def, Value.isNull_canonical]
  have sameEncoding : encode (primaryKey.map Value.canonical) = encode primaryKey :=
    encodeWith_canonical primaryKey []
  have sameSlot : ((values.map Value.canonical).zip index.keyDirections).flatMap
          (fun pair => encodeValue pair.2 pair.1) =
        (values.zip index.keyDirections).flatMap
          (fun pair => encodeValue pair.2 pair.1) := by
    rw [zip_map_left, flatMap_map]
    simp only [Prod.map_fst, Prod.map_snd, id_eq, encodeValue_canonical]
  rw [indexEntry, indexEntry, sameNulls, sameEncoding, sameSlot, tenantValue,
    tenantValue]
  cases table.tenantColumn with
  | none => rfl
  | some column =>
      cases primaryKey with
      | nil => rfl
      | cons tenant others => simp only [map_cons, head?_cons, encodeValue_canonical]

theorem Keys.indexEntry_congr
    {table : TableDef} {index : IndexDef}
    {values values' primaryKey primaryKey' : List Value}
    (same : values.map Value.canonical = values'.map Value.canonical)
    (sameKey : primaryKey.map Value.canonical = primaryKey'.map Value.canonical) :
    indexEntry table index values primaryKey =
      indexEntry table index values' primaryKey' := by
  rw [← indexEntry_canonical, same, sameKey, indexEntry_canonical]

theorem Row.Same.admittedEntries
    [Platform] {first second : Row} (same : first.Same second)
    (table : TableDef) (index : IndexDef) :
    SlateOrm.admittedEntries table index first =
      SlateOrm.admittedEntries table index second := by
  have entries : ∀ row : Row, entriesFor table index row =
        ((index.keySets row).map (map Value.canonical)).map
          (fun values => indexEntry table index values
            ((row.project table.primaryKey).map Value.canonical)) := by
    intro row
    rw [entriesFor, map_map]
    exact map_congr_left (fun values _ =>
      (indexEntry_canonical table index values _).symm)
  rw [SlateOrm.admittedEntries, SlateOrm.admittedEntries, same.admits index, entries
    first, entries second, same.keySets index, same.project table.primaryKey]

/-- Rows that a table stores alike; a column that is dropped may differ. -/
structure Row.StoredAlike [Platform] (first : Row) (table : TableDef)
    (second : Row) : Prop where
  primaryKey : (first.primaryKeyValues table).map Value.canonical =
    (second.primaryKeyValues table).map Value.canonical
  columns : (first.project table.storedColumns).map Value.canonical =
    (second.project table.storedColumns).map Value.canonical
  entries : ∀ index ∈ table.indexes,
    admittedEntries table index first = admittedEntries table index second

theorem Row.Same.storedAlike
    [Platform] {first second : Row} (same : first.Same second) (table : TableDef) :
    first.StoredAlike table second :=
  ⟨same.project table.primaryKey, same.project table.storedColumns,
    fun index _ => same.admittedEntries table index⟩

/-! ## Keyable values -/

/-- Whether a value is one that a key may hold: no vector and no array. -/
def Value.isKeyable : Value → Bool
  | .vector _ => false
  | .array _ => false
  | _ => true

theorem Value.isKeyable_ofI128
    (number : Int) :
    (Value.ofI128 number).isKeyable = true := by
  unfold Value.ofI128
  split <;> rfl

@[simp] theorem Value.isKeyable_coded
    (value : Value) :
    value.coded.isKeyable = value.isKeyable := by
  cases value with
  | u64 number =>
      rw [Value.coded, Value.cut, Value.canonical_u64]
      exact Value.isKeyable_ofI128 _
  | vector elements =>
      rw [Value.coded, Value.cut, Value.canonical, Value.isKeyable, Value.isKeyable]
  | _ => rfl

theorem Value.canonical_of_coded_keyable
    {value key : Value}
    (keyable : key.isKeyable = true)
    (same : value.coded = key.coded) :
    value.canonical = key.canonical := by
  have uncut : ∀ other : Value, other.isKeyable = true →
      other.coded = other.canonical := by
    intro other isKeyable
    cases other with
    | vector elements
    | array elements => cases isKeyable
    | _ => rw [Value.coded, Value.cut]
  have keyable' : value.isKeyable = true := by
    rw [← Value.isKeyable_coded, same, Value.isKeyable_coded, keyable]
  rw [← uncut value keyable', same, uncut key keyable]

theorem canonical_of_coded_keys
    {values keys : List Value}
    (keyable : ∀ key ∈ keys, key.isKeyable = true)
    (same : values.map Value.coded = keys.map Value.coded) :
    values.map Value.canonical = keys.map Value.canonical := by
  induction values generalizing keys with
  | nil =>
      cases keys with
      | nil => rfl
      | cons _ _ => cases same
  | cons value rest ih =>
      cases keys with
      | nil => cases same
      | cons key others =>
          rw [map_cons, map_cons, cons.injEq] at same
          rw [map_cons, map_cons, Value.canonical_of_coded_keyable
            (keyable key (mem_cons_self ..)) same.1, ih (fun other member => keyable
            other (mem_cons_of_mem _ member)) same.2]

/-! ## Valid rows -/

/-- A value that a column of a table may hold. -/
structure ColumnDef.Holds (column : ColumnDef) (value : Value) : Prop where
  typed : value.valueType = some column.type ∨ value = .null
  dropped : column.isDropped = true → value = .null
  present : column.isDropped = false → column.nullable = false → value ≠ .null
  flat : value.flat = true

variable {value : Value}

theorem Value.eq_null_of_isNull
    (isNull : value.isNull = true) :
    value = .null := by
  cases value with
  | null => rfl
  | _ => cases isNull

theorem Value.eq_null_of_valueType
    (untyped : value.valueType = none) :
    value = .null := by
  cases value with
  | null => rfl
  | _ => cases untyped

theorem valueType_of_checkElements
    {table column : String} {element : ValueType} {position : Nat}
    {elements : List Value}
    (checked : checkElements table column element position elements = .ok ()) :
    ∀ item ∈ elements, item.valueType = some element := by
  induction elements generalizing position with
  | nil =>
      intro item member
      cases member
  | cons first rest ih =>
      rw [checkElements] at checked
      split at checked
      · cases checked
      · next typed =>
          intro item member
          rcases mem_cons.mp member with rfl | inRest
          · exact not_not.mp typed
          · exact ih checked item inRest

/-- A checked value is one that its column may hold. -/
theorem holds_of_checkValue
    {table : String} {column : ColumnDef}
    (arrays : column.type = .array →
      ∃ element, column.element = some element ∧ element ≠ .array)
    (checked : checkValue table column value = .ok ()) :
    column.Holds value := by
  rw [checkValue.eq_def] at checked
  split at checked
  · next isDropped =>
      split at checked
      · next isNull =>
          obtain rfl := Value.eq_null_of_isNull isNull
          exact ⟨Or.inr rfl, fun _ => rfl,
            fun live => absurd isDropped (by rw [live]; decide), rfl⟩
      · cases checked
  · next isLive =>
      split at checked
      · next untyped =>
          obtain rfl := Value.eq_null_of_valueType untyped
          split at checked
          · next isNullable =>
              exact ⟨Or.inr rfl, fun _ => rfl,
                fun _ always => absurd isNullable (by rw [always]; decide),
                rfl⟩
          · cases checked
      · next actual typed =>
          split at checked
          · cases checked
          · next sameType =>
              have isType : value.valueType = some column.type := by
                rw [typed, not_not.mp sameType]
              refine ⟨Or.inl isType, fun isDropped => absurd isDropped isLive, ?_, ?_⟩
              · rintro _ _ rfl
                cases isType
              · cases value with
                | array elements =>
                    have isArray : column.type = .array := (Option.some.inj isType).symm
                    obtain ⟨element, hasElement, notNested⟩ := arrays isArray
                    have isElement : column.elementType = some element := by
                      rw [ColumnDef.elementType, if_pos isArray, hasElement]
                    rw [isElement] at checked
                    apply all_eq_true.mpr
                    intro item member
                    have itemType := valueType_of_checkElements checked item member
                    cases item with
                    | array _ => exact absurd (Option.some.inj itemType).symm notNested
                    | _ => rfl
                | _ => rfl

theorem ColumnDef.Holds.isKeyable
    {column : ColumnDef}
    (held : column.Holds value)
    (keyable : column.Keyable) :
    value.isKeyable = true := by
  rcases held.typed with typed | rfl
  · cases value with
    | vector elements => exact absurd (Option.some.inj typed).symm keyable.notVector
    | array elements => exact absurd (Option.some.inj typed).symm keyable.notArray
    | _ => rfl
  · rfl

section

variable [Platform]

variable {table : TableDef} {row : Row}

theorem Row.width_of_validate
    (valid : row.validate table = .ok ()) :
    row.values.length = table.columns.length := by
  rw [Row.validate] at valid
  split at valid
  · cases valid
  · next sameLength => exact not_not.mp sameLength

omit [Platform] in
theorem Value.fits_of_isKeyable
    {value : Value}
    (isKeyable : value.isKeyable = true) :
    value.fits = true := by
  cases value with
  | vector elements
  | array elements => cases isKeyable
  | _ => rfl

theorem Row.holds_of_validate
    (wellFormed : table.WellFormed)
    (valid : row.validate table = .ok ())
    {ordinal : Ordinal} {column : ColumnDef}
    (found : table.column ordinal = some column) :
    column.Holds (row.valueOrNull ordinal) := by
  have width := Row.width_of_validate valid
  rw [Row.validate, if_neg (not_not.mpr width)] at valid
  obtain ⟨_, checked, _⟩ := bind_eq_ok.mp valid
  obtain ⟨inColumns, isColumn⟩ := List.getElem?_eq_some_iff.mp found
  have inRow : ordinal < row.values.length := width ▸ inColumns
  have here : row.valueOrNull ordinal = row.values[ordinal] := by
    rw [Row.valueOrNull, Row.get, getElem?_eq_getElem inRow]
    rfl
  have paired : (column, row.values[ordinal]) ∈ table.columns.zip row.values := by
    rw [mem_iff_getElem]
    refine ⟨ordinal, ?_, ?_⟩
    · rw [length_zip, width, Nat.min_self]
      exact inColumns
    · rw [getElem_zip, isColumn]
  rw [here]
  exact holds_of_checkValue (wellFormed.arrays column
    (mem_of_getElem? found)) (checkEach_eq_ok checked _ paired)

theorem canonical_of_encode_primaryKey
    (wellFormed : table.WellFormed)
    (valid : row.validate table = .ok ())
    {primaryKey : List Value}
    (same : encode primaryKey = encode (row.primaryKeyValues table)) :
    primaryKey.map Value.canonical =
      (row.primaryKeyValues table).map Value.canonical := by
  refine canonical_of_coded_keys ?_ (coded_of_encode same)
  intro value member
  obtain ⟨ordinal, inKey, rfl⟩ := mem_map.mp member
  obtain ⟨column, found, _, isKeyable, _⟩ := wellFormed.key ordinal inKey
  exact (Row.holds_of_validate wellFormed valid found).isKeyable isKeyable

end

end SlateOrm
