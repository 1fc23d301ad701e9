import SlateOrm.RowReading

namespace SlateOrm

open List

/-!
# Reading back the row that was written

A row is decoded from its own primary key and its own body.  The columns of the
body come back without their NaN payloads, and keep their types; but the elements
of an array are decoded without one, so that an unsigned element that fits a
signed integer comes back as one and is refused when the row is written back.
-/

/-! ## Types of what is read back -/

@[simp] theorem Value.valueType_decoded
    (value : Value) :
    value.decoded.valueType = value.valueType := by
  cases value <;> rfl

theorem Value.valueType_canonical_iff
    (value : Value) :
    value.canonical.valueType = value.valueType ↔
      ∀ number, value = .u64 number → 2 ^ 63 ≤ number.toNat := by
  cases value with
  | u64 number =>
      rcases Value.ofI128_toNat number with
        ⟨signed, same, equal⟩ | ⟨same, large⟩
      · rw [Value.canonical_u64, same]
        constructor
        · intro sameType
          cases sameType
        · intro large
          have bound := signed.toInt_lt
          have here := large number rfl
          omega
      · rw [Value.canonical_u64, same]
        constructor
        · intro _ other sameNumber
          cases sameNumber
          exact large
        · intro _
          rfl
  | _ => simp [Value.canonical, Value.valueType]

theorem checkElements_eq_ok_iff
    (table column : String) (element : ValueType) (position : Nat)
    (elements : List Value) :
    checkElements table column element position elements = .ok () ↔
      ∀ item ∈ elements, item.valueType = some element := by
  constructor
  · exact valueType_of_checkElements
  · intro typed
    induction elements generalizing position with
    | nil => rfl
    | cons item rest ih =>
        rw [checkElements, if_neg (not_not.mpr (typed item (mem_cons_self ..)))]
        exact ih (position + 1) (fun other member =>
          typed other (mem_cons_of_mem _ member))

/-- An array of unsigned elements that are all too large for a signed one. -/
def ColumnDef.LargeUnsigned (column : ColumnDef) (value : Value) : Prop :=
  column.elementType = some .u64 → ∀ elements, value = .array elements →
      ∀ number, .u64 number ∈ elements → 2 ^ 63 ≤ number.toNat

/-- What a column's check asks of a value. -/
structure ColumnDef.Accepts (column : ColumnDef) (value : Value) : Prop where
  dropped : column.isDropped = true → value = .null
  typed : column.isDropped = false → value.valueType = some column.type ∨
      value = .null ∧ column.nullable = true
  elements : column.isDropped = false →
    ∀ element items, column.elementType = some element →
      value = .array items → ∀ item ∈ items, item.valueType = some element

/-- A value passes its column's check when the column accepts it. -/
theorem checkValue_eq_ok_iff
    (table : String) (column : ColumnDef) (value : Value) :
    checkValue table column value = .ok () ↔ column.Accepts value := by
  rw [checkValue.eq_def]
  cases isDropped : column.isDropped with
  | true =>
      rw [if_pos rfl]
      constructor
      · intro checked
        split at checked
        · next isNull =>
            obtain rfl := Value.eq_null_of_isNull isNull
            exact ⟨fun _ => rfl, fun live => absurd isDropped (by simp [live]),
              fun live => absurd isDropped (by simp [live])⟩
        · cases checked
      · intro accepts
        rw [accepts.dropped isDropped]
        rfl
  | false =>
      rw [if_neg (by decide)]
      cases typed : value.valueType with
      | none =>
          obtain rfl := Value.eq_null_of_valueType typed
          constructor
          · intro checked
            dsimp only at checked
            split at checked
            · next isNullable =>
                refine ⟨fun _ => rfl, fun _ => .inr ⟨rfl, isNullable⟩, ?_⟩
                intro _ element items _ isArray
                cases isArray
            · cases checked
          · intro accepts
            rcases accepts.typed isDropped with isType | ⟨-, isNullable⟩
            · cases isType
            · exact if_pos isNullable
      | some actual =>
          dsimp only
          constructor
          · intro checked
            split at checked
            · cases checked
            · next sameType =>
                refine ⟨fun isGone => absurd isGone (by simp [isDropped]),
                  fun _ => .inl (by rw [typed, not_not.mp sameType]), ?_⟩
                intro _ element items hasElement isArray
                rw [hasElement, isArray] at checked
                exact valueType_of_checkElements checked
          · intro accepts
            rcases accepts.typed isDropped with isType | ⟨isNull, -⟩
            · rw [typed] at isType
              rw [if_neg (not_not.mpr (Option.some.inj isType))]
              split
              · next element items hasElement =>
                  exact (checkElements_eq_ok_iff ..).mpr
                    (accepts.elements isDropped element items hasElement rfl)
              · rfl
            · rw [isNull] at typed
              cases typed

theorem Value.decoded_array
    {elements : List Value}
    (fits : (Value.array elements).fits = true) :
    (Value.array elements).decoded = .array (elements.map Value.canonical) := by
  have cut := Value.cut_eq_self _ fits
  calc (Value.array elements).decoded
      = (Value.array elements).cut.canonical := rfl
    _ = .array (elements.map Value.canonical) := by
        rw [cut, Value.canonical, Value.canonicalList_eq_map]

/-- A value that has passed its column's check passes it again when read. -/
theorem accepts_decoded_iff
    {column : ColumnDef} {value : Value}
    (fits : value.fits = true)
    (isLive : column.isDropped = false)
    (accepts : column.Accepts value) :
    column.Accepts value.decoded ↔ column.LargeUnsigned value := by
  constructor
  · intro again hasElement elements isArray number member
    have typed := again.elements isLive .u64 (elements.map Value.canonical)
      hasElement (by rw [isArray] at fits ⊢; exact Value.decoded_array fits)
      _ (mem_map_of_mem member)
    exact (Value.valueType_canonical_iff (.u64 number)).mp typed number rfl
  · intro large
    refine ⟨fun isGone => absurd isGone (by simp [isLive]), ?_, ?_⟩
    · intro _
      rcases accepts.typed isLive with typed | ⟨rfl, isNullable⟩
      · exact .inl (by rw [Value.valueType_decoded, typed])
      · exact .inr ⟨rfl, isNullable⟩
    · intro _ element items hasElement isArray item member
      have isArray' : value.valueType = some .array := by
        rw [← Value.valueType_decoded, isArray]
        rfl
      cases value with
      | array elements =>
          rw [Value.decoded_array fits] at isArray
          cases isArray
          obtain ⟨original, inElements, rfl⟩ := mem_map.mp member
          have typed := accepts.elements isLive element elements hasElement rfl
            original inElements
          rw [← typed, Value.valueType_canonical_iff]
          rintro number rfl
          cases typed
          exact large hasElement elements rfl number inElements
      | _ => cases isArray'

/-! ## Rows that are read back -/

/-- What is read back of a row with its own primary key. -/
def Row.reread (table : TableDef) (row : Row) : Row :=
  ⟨fillKey table (row.primaryKeyValues table)
    (row.readInto table.storedColumns table.blank)⟩

theorem length_reread
    (table : TableDef) (row : Row) :
    (row.reread table).values.length = table.columns.length := by
  rw [Row.reread, length_fillKey, length_readInto, TableDef.blank, length_replicate]

theorem valueOrNull_reread_of_mem
    {table : TableDef}
    (wellFormed : table.WellFormed)
    (row : Row) {ordinal : Ordinal}
    (inKey : ordinal ∈ table.primaryKey) :
    (row.reread table).valueOrNull ordinal = row.valueOrNull ordinal := by
  obtain ⟨position, inPosition, rfl⟩ := mem_iff_getElem.mp inKey
  rw [Row.reread, valueOrNull_fillKey_of_mem wellFormed
    (by rw [Row.primaryKeyValues, Row.project, length_map])
    (by rw [length_readInto, TableDef.blank, length_replicate])
    inPosition, Row.primaryKeyValues, Row.project, getElem?_map,
    getElem?_eq_getElem inPosition]
  rfl

section

variable [Platform]

/-- A row is valid when its columns and its indexes accept it. -/
theorem Row.validate_eq_ok_iff
    (row : Row) (table : TableDef) :
    row.validate table = .ok () ↔ row.values.length = table.columns.length ∧
      (∀ ordinal column, table.column ordinal = some column →
        column.Accepts (row.valueOrNull ordinal)) ∧
      ∀ index ∈ table.indexes, checkExpression table.name row index = .ok () := by
  rw [Row.validate]
  constructor
  · intro valid
    split at valid
    · cases valid
    · next width =>
        have width := not_not.mp width
        obtain ⟨_, columns, indexes⟩ := bind_eq_ok.mp valid
        refine ⟨width, ?_, checkEach_eq_ok indexes⟩
        intro ordinal column found
        obtain ⟨inColumns, isColumn⟩ := List.getElem?_eq_some_iff.mp found
        have inRow : ordinal < row.values.length := width ▸ inColumns
        have here : row.valueOrNull ordinal = row.values[ordinal] := by
          rw [Row.valueOrNull, Row.get, getElem?_eq_getElem inRow]
          rfl
        have paired : (column, row.values[ordinal]) ∈ table.columns.zip row.values := by
          rw [mem_iff_getElem]
          refine ⟨ordinal, ?_, ?_⟩
          · rw [length_zip, width, Nat.min_self]
            exact inColumns
          · rw [getElem_zip, isColumn]
        rw [here, ← checkValue_eq_ok_iff table.name]
        exact checkEach_eq_ok columns _ paired
  · rintro ⟨width, columns, indexes⟩
    rw [if_neg (not_not.mpr width)]
    refine bind_eq_ok.mpr ⟨(), checkEach_of_forall ?_, checkEach_of_forall indexes⟩
    rintro ⟨column, value⟩ member
    obtain ⟨ordinal, inZip, isPair⟩ := mem_iff_getElem.mp member
    rw [getElem_zip] at isPair
    cases isPair
    rw [length_zip, Nat.lt_min] at inZip
    have accepts := columns ordinal table.columns[ordinal] (getElem?_eq_getElem inZip.1)
    rw [Row.valueOrNull, Row.get, getElem?_eq_getElem inZip.2] at accepts
    exact (checkValue_eq_ok_iff ..).mpr accepts

variable
  {table : TableDef}
  (wellFormed : table.WellFormed)
  {row : Row}
  (valid : row.validate table = .ok ())

include wellFormed valid

theorem decodeRow_eq_ok_iff
    (found : Row) :
    decodeRow table (row.primaryKeyValues table) (encodeBody table row) = .ok found ↔
      table.Current ∧ found = row.reread table :=
  decodeRow_eq_ok_iff_of_codes wellFormed
    (Row.codes_of_validate wellFormed valid) (row.primaryKeyValues table) found

theorem valueOrNull_reread_of_notMem
    {ordinal : Ordinal} {column : ColumnDef}
    (found : table.column ordinal = some column)
    (outside : ordinal ∉ table.primaryKey) :
    (row.reread table).valueOrNull ordinal = (row.valueOrNull ordinal).decoded := by
  have inRange : ordinal < table.columns.length :=
    (List.getElem?_eq_some_iff.mp found).1
  have whole : table.storedColumns.filter (isWanted none) =
      table.storedColumns :=
    filter_eq_self.mpr (fun _ _ => rfl)
  rw [Row.reread, ← whole]
  exact valueOrNull_read_of_notMem wellFormed valid _ inRange outside rfl

theorem valueType_reread
    (ordinal : Ordinal) :
    ((row.reread table).get ordinal).map Value.valueType =
      (row.get ordinal).map Value.valueType := by
  have width := Row.width_of_validate valid
  have width' := length_reread table row
  rcases Nat.lt_or_ge ordinal table.columns.length with inside | outside
  · have found : table.column ordinal = some table.columns[ordinal] :=
      getElem?_eq_getElem inside
    have here : ((row.reread table).valueOrNull ordinal).valueType =
        (row.valueOrNull ordinal).valueType := by
      by_cases inKey : ordinal ∈ table.primaryKey
      · rw [valueOrNull_reread_of_mem wellFormed row inKey]
      · rw [valueOrNull_reread_of_notMem wellFormed valid found inKey,
          Value.valueType_decoded]
    rw [Row.valueOrNull, Row.valueOrNull, Row.get, Row.get,
      getElem?_eq_getElem (by omega), getElem?_eq_getElem (by omega)] at here
    rw [Row.get, Row.get, getElem?_eq_getElem (by omega),
      getElem?_eq_getElem (by omega)]
    exact congrArg some here
  · rw [Row.get, Row.get, getElem?_eq_none (by omega), getElem?_eq_none (by omega)]

end

/-! ## Types of computed values -/

section

variable [Platform]

variable {row row' : Columns}

theorem Scalar.valueType_congr
    (same : SameColumns row row')
    (types : ∀ ordinal, (row ordinal).map Value.valueType =
        (row' ordinal).map Value.valueType)
    (scalar : Scalar) :
    (scalar.evaluate row).valueType = (scalar.evaluate row').valueType :=
  (Scalar.evaluate_alike same scalar).2 types

end

/-! ## Rows without NaN payloads -/

namespace Value

/-- A value that is no array, without its NaN payloads. -/
def bareItem : Value → Value
  | .f64 bits => .f64 bits.canonical
  | .vector elements => .vector (elements.map F32.canonical)
  | value => value

/-- A value without its NaN payloads. -/
def bare : Value → Value
  | .array elements => .array (elements.map bareItem)
  | value => value.bareItem

theorem canonical_of_item
    {value : Value}
    (notArray : value.isArray = false)
    (large : ∀ number, value = .u64 number → 2 ^ 63 ≤ number.toNat) :
    value.canonical = value.bareItem := by
  cases value with
  | u64 number =>
      rcases ofI128_toNat number with ⟨signed, -, equal⟩ | ⟨same, -⟩
      · have bound := signed.toInt_lt
        have here := large number rfl
        omega
      · exact same
  | array elements => cases notArray
  | _ => rfl

theorem decoded_eq_bare
    {value : Value}
    (fits : value.fits = true)
    (isFlat : value.flat = true)
    (large : ∀ elements, value = .array elements →
      ∀ number, .u64 number ∈ elements → 2 ^ 63 ≤ number.toNat) :
    value.decoded = value.bare := by
  cases value with
  | array elements =>
      rw [decoded_array fits, bare]
      congr 1
      refine map_congr_left (fun item member => ?_)
      rw [flat, all_eq_true] at isFlat
      refine canonical_of_item (by simpa using isFlat item member) ?_
      rintro number rfl
      exact large elements rfl number member
  | vector elements =>
      have cut := Value.cut_eq_self _ fits
      calc (Value.vector elements).decoded
          = (Value.vector elements).cut.canonical := rfl
        _ = (Value.vector elements).bare := by
            rw [cut]
            rfl
  | _ => rfl

end Value

/-- A row without the NaN payloads of the columns outside its primary key. -/
def Row.bare (table : TableDef) (row : Row) : Row :=
  ⟨row.values.mapIdx (fun ordinal value =>
    if ordinal ∈ table.primaryKey then value else value.bare)⟩

section

variable [Platform]

/-- An index's expression passes when it computes what it declares. -/
theorem checkExpression_eq_ok_iff
    (table : String) (row : Row) (index : IndexDef) :
    checkExpression table row index = .ok () ↔
      ∀ expression, index.expression = some expression →
        ∀ actual, (expression.compute.value row).valueType = some actual →
          actual = expression.produces := by
  rw [checkExpression.eq_def]
  cases isComputed : index.expression with
  | none => simp
  | some expression =>
      dsimp only
      cases typed : (expression.compute.value row).valueType with
      | none =>
          constructor
          · rintro - other isOther actual isActual
            cases isOther
            rw [typed] at isActual
            cases isActual
          · intro _
            rfl
      | some actual =>
          dsimp only
          constructor
          · intro checked other isOther actual' isActual
            cases isOther
            rw [typed] at isActual
            cases isActual
            split at checked
            · cases checked
            · next sameType => exact not_not.mp sameType
          · intro declared
            rw [if_neg (not_not.mpr (declared _ rfl _ typed))]

/--
A row that is read back as itself: the table has reached its live columns, no
vector is cut, no unsigned element of an array comes back signed, and no index
expression from outside the kernel has another type once NaN payloads are gone.
-/
structure Row.Rereadable (table : TableDef) (row : Row) : Prop where
  current : table.Current
  fits : ∀ ordinal column, table.column ordinal = some column →
    column.isDropped = false → (row.valueOrNull ordinal).fits = true
  unsigned : ∀ ordinal column, table.column ordinal = some column →
    column.isDropped = false → column.LargeUnsigned (row.valueOrNull ordinal)
  computed : ∀ index ∈ table.indexes, ∀ compute respects produces direction,
    index.expression = some ⟨.custom compute respects, produces, direction⟩ →
      (compute (row.bare table)).valueType = (compute row).valueType

/-- A row that its own key and body are decoded to, and that is valid again. -/
def Row.RoundTrips (table : TableDef) (row : Row) : Prop := ∃ found,
    decodeRow table (row.primaryKeyValues table) (encodeBody table row) = .ok found ∧
    (∀ ordinal column, table.column ordinal = some column → column.isDropped = false →
        (found.valueOrNull ordinal == row.valueOrNull ordinal) = true) ∧
    found.validate table = .ok ()

variable
  {table : TableDef}
  (wellFormed : table.WellFormed)
  {row : Row}
  (valid : row.validate table = .ok ())

include wellFormed valid

variable {column : ColumnDef} {ordinal : Ordinal}

theorem canonical_reread
    (found : table.column ordinal = some column)
    (fits : column.isDropped = false → (row.valueOrNull ordinal).fits = true) :
    ((row.reread table).valueOrNull ordinal).canonical =
      (row.valueOrNull ordinal).canonical := by
  by_cases inKey : ordinal ∈ table.primaryKey
  · rw [valueOrNull_reread_of_mem wellFormed row inKey]
  · rw [valueOrNull_reread_of_notMem wellFormed valid found inKey,
      Value.canonical_decoded]
    cases isDropped : column.isDropped with
    | true =>
        rw [(Row.holds_of_validate wellFormed valid found).dropped isDropped]
        rfl
    | false => exact Value.coded_of_fits (fits isDropped)

theorem same_reread
    (fits : ∀ ordinal column, table.column ordinal = some column →
      column.isDropped = false → (row.valueOrNull ordinal).fits = true) :
    (row.reread table).Same row := by
  apply Row.same_of_valueOrNull
  · rw [length_reread, Row.width_of_validate valid]
  · intro ordinal inRange
    rw [length_reread] at inRange
    exact canonical_reread wellFormed valid (getElem?_eq_getElem inRange)
      (fits ordinal _ (getElem?_eq_getElem inRange))

theorem not_array_of_key
    (found : table.column ordinal = some column)
    (inKey : ordinal ∈ table.primaryKey) :
    column.type ≠ .array ∧ (row.valueOrNull ordinal).fits = true := by
  obtain ⟨column', found', _, keyable, _⟩ := wellFormed.key ordinal inKey
  rw [found] at found'
  cases found'
  exact ⟨keyable.notArray, Value.fits_of_isKeyable
    ((Row.holds_of_validate wellFormed valid found).isKeyable keyable)⟩

/-- A row whose elements keep their types is read back without payloads. -/
theorem reread_eq_bare
    (fits : ∀ ordinal column, table.column ordinal = some column →
      column.isDropped = false → (row.valueOrNull ordinal).fits = true)
    (unsigned : ∀ ordinal column, table.column ordinal = some column →
      column.isDropped = false → column.LargeUnsigned (row.valueOrNull ordinal)) :
    row.reread table = row.bare table := by
  have width := Row.width_of_validate valid
  have width' := length_reread table row
  have accepted := ((row.validate_eq_ok_iff table).mp valid).2.1
  have values : (row.reread table).values = (row.bare table).values := by
    apply ext_getElem
    · rw [Row.bare, length_mapIdx, width', width]
    · intro ordinal inside inside'
      have inTable : ordinal < table.columns.length := by omega
      have inRow : ordinal < row.values.length := by omega
      have found : table.column ordinal = some table.columns[ordinal] :=
        getElem?_eq_getElem inTable
      have here : (row.reread table).valueOrNull ordinal =
          (row.reread table).values[ordinal] := by
        rw [Row.valueOrNull, Row.get, getElem?_eq_getElem inside]
        rfl
      have original : row.valueOrNull ordinal = row.values[ordinal] := by
        rw [Row.valueOrNull, Row.get, getElem?_eq_getElem inRow]
        rfl
      rw [← here]
      simp only [Row.bare, getElem_mapIdx]
      rw [← original]
      split
      · next inKey => exact valueOrNull_reread_of_mem wellFormed row inKey
      · next outside =>
          rw [valueOrNull_reread_of_notMem wellFormed valid found outside]
          have held := Row.holds_of_validate wellFormed valid found
          cases isDropped : (table.columns[ordinal]).isDropped with
          | true =>
              rw [held.dropped isDropped]
              rfl
          | false =>
              refine Value.decoded_eq_bare (fits ordinal _ found isDropped) held.flat ?_
              intro elements isArray number member
              -- An array's column declares the type of its elements.
              have isType : (table.columns[ordinal]).type = .array := by
                rcases held.typed with typed | isNull
                · rw [isArray] at typed
                  exact (Option.some.inj typed).symm
                · rw [isArray] at isNull
                  cases isNull
              obtain ⟨element, declared, -⟩ := wellFormed.arrays _
                (getElem_mem inTable) isType
              have hasElement : (table.columns[ordinal]).elementType =
                  some element := by
                rw [ColumnDef.elementType, if_pos isType, declared]
              have typed := (accepted ordinal _ found).elements isDropped
                element elements hasElement isArray _ member
              cases typed
              exact unsigned ordinal _ found isDropped hasElement elements
                isArray number member
  cases reread : row.reread table
  cases bare : row.bare table
  rw [reread, bare] at values
  exact congrArg Row.mk values

section

variable
  (found : table.column ordinal = some column)

include found

theorem fits_of_reread
    (equal : ((row.reread table).valueOrNull ordinal ==
      row.valueOrNull ordinal) = true) :
    (row.valueOrNull ordinal).fits = true := by
  by_cases inKey : ordinal ∈ table.primaryKey
  · exact (not_array_of_key wellFormed valid found inKey).2
  · rw [Value.beq_iff_canonical, valueOrNull_reread_of_notMem wellFormed valid
      found inKey, Value.canonical_decoded] at equal
    exact Value.fits_of_coded equal

theorem accepts_reread_iff
    (isLive : column.isDropped = false)
    (fits : (row.valueOrNull ordinal).fits = true) :
    column.Accepts ((row.reread table).valueOrNull ordinal) ↔
      column.LargeUnsigned (row.valueOrNull ordinal) := by
  have accepts := ((row.validate_eq_ok_iff table).mp valid).2.1 ordinal column found
  by_cases inKey : ordinal ∈ table.primaryKey
  · rw [valueOrNull_reread_of_mem wellFormed row inKey]
    refine ⟨fun _ hasElement => ?_, fun _ => accepts⟩
    rw [ColumnDef.elementType,
      if_neg (not_array_of_key wellFormed valid found inKey).1] at hasElement
    cases hasElement
  · rw [valueOrNull_reread_of_notMem wellFormed valid found inKey]
    exact accepts_decoded_iff fits isLive accepts

theorem accepts_reread_of_dropped
    (isDropped : column.isDropped = true) :
    column.Accepts ((row.reread table).valueOrNull ordinal) := by
  have accepts := ((row.validate_eq_ok_iff table).mp valid).2.1 ordinal column found
  have isNull := (Row.holds_of_validate wellFormed valid found).dropped isDropped
  have isRead : (row.reread table).valueOrNull ordinal = .null := by
    by_cases inKey : ordinal ∈ table.primaryKey
    · rw [valueOrNull_reread_of_mem wellFormed row inKey, isNull]
    · rw [valueOrNull_reread_of_notMem wellFormed valid found inKey, isNull]
      rfl
  rw [isRead, ← isNull]
  exact accepts

end

/-- A valid row is read back as a valid row exactly when it is rereadable. -/
theorem rowRoundTrips_iff_of_wellFormed :
    row.RoundTrips table ↔ row.Rereadable table := by
  have original := (row.validate_eq_ok_iff table).mp valid
  constructor
  · rintro ⟨found, success, equal, again⟩
    obtain ⟨current, rfl⟩ := (decodeRow_eq_ok_iff wellFormed valid found).mp success
    rw [Row.validate_eq_ok_iff] at again
    have fits : ∀ ordinal column, table.column ordinal = some column →
        column.isDropped = false → (row.valueOrNull ordinal).fits = true := by
      intro ordinal column isColumn isLive
      exact fits_of_reread wellFormed valid isColumn
        (equal ordinal column isColumn isLive)
    have unsigned : ∀ ordinal column, table.column ordinal = some column →
        column.isDropped = false → column.LargeUnsigned (row.valueOrNull ordinal) := by
      intro ordinal column isColumn isLive
      exact (accepts_reread_iff wellFormed valid isColumn isLive
        (fits ordinal column isColumn isLive)).mp (again.2.1 ordinal column isColumn)
    refine ⟨current, fits, unsigned, ?_⟩
    intro index member compute respects produces direction isComputed
    have before := (checkExpression_eq_ok_iff ..).mp
      (original.2.2 index member) _ isComputed
    have after := (checkExpression_eq_ok_iff ..).mp
      (again.2.2 index member) _ isComputed
    have same := respects _ _ (same_reread wellFormed valid fits)
    rw [← reread_eq_bare wellFormed valid fits unsigned]
    dsimp only [Computed.value] at before after
    cases typed : (compute row).valueType with
    | none =>
        have isNull := Value.eq_null_of_valueType typed
        have noValue := congrArg Value.isNull same
        rw [Value.isNull_canonical, Value.isNull_canonical, isNull] at noValue
        rw [Value.eq_null_of_isNull noValue]
        rfl
    | some actual =>
        cases typed' : (compute (row.reread table)).valueType with
        | none =>
            have isNull := Value.eq_null_of_valueType typed'
            have noValue := congrArg Value.isNull same
            rw [Value.isNull_canonical, Value.isNull_canonical, isNull] at noValue
            rw [Value.eq_null_of_isNull noValue.symm] at typed
            cases typed
        | some actual' => rw [before actual typed, after actual' typed']
  · intro rereadable
    have same := same_reread wellFormed valid rereadable.fits
    refine ⟨row.reread table, (decodeRow_eq_ok_iff wellFormed valid _).mpr
      ⟨rereadable.current, rfl⟩, ?_, ?_⟩
    · intro ordinal column isColumn isLive
      rw [Value.beq_iff_canonical]
      exact canonical_reread wellFormed valid isColumn
        (rereadable.fits ordinal column isColumn)
    · rw [Row.validate_eq_ok_iff]
      refine ⟨length_reread table row, ?_, ?_⟩
      · intro ordinal column isColumn
        cases isDropped : column.isDropped with
        | true => exact accepts_reread_of_dropped wellFormed valid isColumn isDropped
        | false =>
            exact (accepts_reread_iff wellFormed valid isColumn isDropped
              (rereadable.fits ordinal column isColumn isDropped)).mpr
                (rereadable.unsigned ordinal column isColumn isDropped)
      · intro index member
        rw [checkExpression_eq_ok_iff]
        rintro ⟨compute, produces, direction⟩ isComputed actual typed
        refine (checkExpression_eq_ok_iff ..).mp (original.2.2 index member) _
          isComputed actual ?_
        rw [← typed]
        cases compute with
        | scalar expression =>
            exact (Scalar.valueType_congr same.sameColumns
              (valueType_reread wellFormed valid) expression).symm
        | custom compute respects =>
            rw [reread_eq_bare wellFormed valid rereadable.fits rereadable.unsigned]
            exact (rereadable.computed index member compute respects produces
              direction isComputed).symm

end

/--
A valid row of a table that the builder accepts is read back as an equal, valid
row exactly when it is rereadable.
-/
theorem rowRoundTrips_iff
    [Platform] {builder : TableBuilder} {table : TableDef}
    (built : builder.build = .ok table)
    {row : Row}
    (valid : row.validate table = .ok ()) :
    row.RoundTrips table ↔ row.Rereadable table :=
  rowRoundTrips_iff_of_wellFormed (TableBuilder.build_wellFormed built) valid

/-! ## A table of measurements -/

/-- A table with an array of unsigned counts. -/
def countsBuilder : TableBuilder where
  id := 1
  name := "counts"
  columns := [
    { name := "id", type := .i64 },
    { name := "seen", type := .array, element := some .u64 }]
  primaryKey := ["id"]

/-- The table of counts. -/
def counts : TableDef where
  id := 1
  name := "counts"
  columns := [ ⟨"id", .i64, false, 0, none, none, [], 0, none, none⟩,
    ⟨"seen", .array, false, 0, none, none, [], 0, some .u64, none⟩]
  primaryKey := [0]
  bodyColumns := [1]
  storedColumns := [1]
  indexes := []
  checks := []
  foreignKeys := []
  tenantColumn := none
  softDelete := none
  schemaVersion := 0

/-- A row with one count. -/
def countRow (number : UInt64) : Row := ⟨[.i64 1, .array [.u64 number]]⟩

/-- A count that no signed integer holds is read back as it was. -/
theorem roundTrips_countRow :
    let _ : Platform := asciiPlatform
    (countRow 0x8000000000000000).RoundTrips counts := by
  let _ : Platform := asciiPlatform
  have built : countsBuilder.build = .ok counts := rfl
  refine (rowRoundTrips_iff built rfl).mpr ⟨?_, ?_, ?_, ?_⟩
  · intro ordinal member isLive
    rw [mem_singleton.mp member]
    rfl
  · intro ordinal column found isLive
    rcases ordinal with _ | _ | ordinal
    · rfl
    · rfl
    · rfl
  · intro ordinal column found isLive hasElement elements isArray number member
    rcases ordinal with _ | _ | ordinal
    · cases isArray
    · cases isArray
      cases mem_singleton.mp member
      decide
    · cases isArray
  · intro index member
    cases member

/-- A small count is read back as a signed integer, and refused. -/
theorem not_roundTrips_countRow :
    ¬∀ (_ : Platform) (builder : TableBuilder) (table : TableDef),
      builder.build = .ok table →
        ∀ row : Row, row.validate table = .ok () → row.RoundTrips table := by
  intro always
  have built : countsBuilder.build = .ok counts := rfl
  obtain ⟨found, success, -, again⟩ :=
    always asciiPlatform countsBuilder counts built (countRow 7) rfl
  have read : decodeRow counts ((countRow 7).primaryKeyValues counts)
      (encodeBody counts (countRow 7)) = .ok ⟨[.i64 1, .array [.i64 7]]⟩ := rfl
  rw [read] at success
  cases success
  cases again

end SlateOrm
