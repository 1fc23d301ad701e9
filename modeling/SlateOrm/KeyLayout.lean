import SlateOrm.Keys
import SlateOrm.SchemaBuild

namespace SlateOrm

open List

/-!
# What keys tell apart

Encoded elements are prefix free and ids have a fixed width, so a key says
which space, which table or index, which tenant, which indexed values and which
primary key it is made of.  Keys and bodies do not tell equal values apart.
-/

@[simp] theorem liftSchema_eq_ok
    {α : Type} {outcome : Except SchemaError α} {value : α} :
    liftSchema outcome = .ok value ↔ outcome = .ok value := by
  cases outcome <;> simp [liftSchema]

@[simp] theorem liftTuple_eq_ok
    {α : Type} {outcome : Except TupleError α} {value : α} :
    liftTuple outcome = .ok value ↔ outcome = .ok value := by
  cases outcome <;> simp [liftTuple]

/-! ## Encoded elements in a row -/

theorem encodeValue_append_inj
    {direction : Direction} {value value' : Value} {rest rest' : Bytes}
    (same : encodeValue direction value ++ rest =
      encodeValue direction value' ++ rest') :
    encodeValue direction value = encodeValue direction value' ∧ rest = rest' := by
  have oneEncoding : encodeValue direction value = encodeValue direction value' := by
    rcases append_eq_append_iff.mp same with
      ⟨between, begins, -⟩ | ⟨between, begins, -⟩
    · exact encodeValue_prefixFree ⟨between, begins.symm⟩
    · exact (encodeValue_prefixFree ⟨between, begins.symm⟩).symm
  rw [oneEncoding] at same
  exact ⟨oneEncoding, append_cancel_left same⟩

/-- What an encoding says of a value. -/
def Value.coded (value : Value) : Value := value.cut.canonical

theorem encodeWith_append_inj
    {values values' : List Value} {directions : List Direction}
    {rest rest' : Bytes}
    (sameLength : values.length = values'.length)
    (same : encodeWith values directions ++ rest =
      encodeWith values' directions ++ rest') :
    values.map Value.coded = values'.map Value.coded ∧ rest = rest' := by
  induction values generalizing values' directions with
  | nil =>
      cases values' with
      | nil => exact ⟨rfl, same⟩
      | cons value' others' => simp at sameLength
  | cons value others ih =>
      cases values' with
      | nil => simp at sameLength
      | cons value' others' =>
          simp only [encodeWith, append_assoc] at same
          obtain ⟨headSame, tailSame⟩ := encodeValue_append_inj same
          have lengths : others.length = others'.length := by
            simpa using sameLength
          obtain ⟨othersSame, restSame⟩ := ih lengths tailSame
          refine ⟨?_, restSame⟩
          rw [map_cons, map_cons, othersSame]
          exact congrArg (· :: _) ((encodeValue_eq_iff _ _ _).mp headSame)

theorem encodeWith_eq_iff
    {values values' : List Value} {directions : List Direction}
    (sameLength : values.length = values'.length) :
    encodeWith values directions = encodeWith values' directions ↔
      values.map Value.coded = values'.map Value.coded := by
  constructor
  · intro same
    have appended : encodeWith values directions ++ [] =
          encodeWith values' directions ++ [] := by
      rw [same]
    exact (encodeWith_append_inj sameLength appended).1
  · intro coded
    induction values generalizing values' directions with
    | nil =>
        cases values' with
        | nil => rfl
        | cons value' others' => simp at sameLength
    | cons value others ih =>
        cases values' with
        | nil => simp at sameLength
        | cons value' others' =>
            rw [map_cons, map_cons, cons.injEq] at coded
            rw [encodeWith, encodeWith, (encodeValue_eq_iff _ value value').mpr coded.1,
              ih (by simpa using sameLength) coded.2]

theorem Value.coded_of_fits
    {value : Value}
    (fits : value.fits = true) :
    value.coded = value.canonical := by
  rw [coded, Value.cut_eq_self value fits]

/-- A value that is coded as it is has no vector that is cut. -/
theorem Value.fits_of_coded
    {value : Value}
    (same : value.coded = value.canonical) :
    value.fits = true := by
  induction value using Value.induction with
  | scalar value notArray =>
      cases value with
      | vector elements =>
          have sameElements : (elements.take u32Max).map F32.canonical =
              elements.map F32.canonical := by
            simpa only [Value.coded, Value.cut, Value.canonical,
              Value.vector.injEq] using same
          have lengths := congrArg length sameElements
          rw [length_map, length_map, length_take] at lengths
          exact decide_eq_true (by omega)
      | array elements => exact absurd rfl (notArray elements)
      | _ => rfl
  | ofArray elements each =>
      have sameElements : Value.canonicalList (Value.cutList elements) =
          Value.canonicalList elements := by
        simpa only [Value.coded, Value.cut, Value.canonical,
          Value.array.injEq] using same
      have all : Value.fitsList elements = true := by
        clear same
        induction elements with
        | nil => rfl
        | cons element rest ih =>
            simp only [Value.cutList, Value.canonicalList, cons.injEq]
              at sameElements
            have here := each element (mem_cons_self ..) sameElements.1
            have others := ih
              (fun other member => each other (mem_cons_of_mem _ member))
              sameElements.2
            rw [Value.fitsList, here, others]
            rfl
      exact all

@[simp] theorem Value.isNull_coded
    (value : Value) :
    value.coded.isNull = value.isNull := by
  rw [coded, Value.isNull_canonical]
  cases value <;> rfl

theorem any_isNull_of_coded
    {values values' : List Value}
    (same : values.map Value.coded = values'.map Value.coded) :
    values.any Value.isNull = values'.any Value.isNull := by
  have nulls (listed : List Value) : listed.any Value.isNull =
        (listed.map Value.coded).any Value.isNull := by
    rw [any_map]
    congr 1
    funext value
    exact (Value.isNull_coded value).symm
  rw [nulls values, nulls values', same]

/-! ## Headers -/

namespace Keys

theorem header_append_inj
    {space space' : UInt8} {id id' : UInt32} {rest rest' : Bytes}
    (same : header space id ++ rest = header space' id' ++ rest') :
    space = space' ∧ id = id' ∧ rest = rest' := by
  simp only [header, cons_append, cons.injEq] at same
  obtain ⟨sameSpace, same⟩ := same
  have lengths : (toBeBytes 4 id.toNat).length = (toBeBytes 4 id'.toNat).length := by
    rw [length_toBeBytes, length_toBeBytes]
  obtain ⟨sameBytes, sameRest⟩ := append_inj same lengths
  refine ⟨sameSpace, ?_, sameRest⟩
  apply UInt32.toNat_inj.mp
  have read (number : UInt32) : fromBeBytes (toBeBytes 4 number.toNat) = number.toNat :=
    fromBeBytes_toBeBytes (by have := number.toNat_lt; omega)
  rw [← read id, sameBytes, read id']

theorem rowKey_inj
    {table table' : TableDef} {primaryKey primaryKey' : List Value}
    (same : rowKey table primaryKey = rowKey table' primaryKey') :
    table.id = table'.id ∧ encode primaryKey = encode primaryKey' := by
  obtain ⟨_, sameId, sameKey⟩ := header_append_inj same
  exact ⟨sameId, sameKey⟩

theorem metaKey_inj
    {table table' : TableId}
    (same : metaKey table = metaKey table') :
    table = table' := by
  rw [← append_nil (metaKey table), ← append_nil (metaKey table')] at same
  exact (header_append_inj same).2.1

/-- The part of an index key that says what is indexed. -/
def slotBytes (table : TableDef) (index : IndexDef)
    (indexValues primaryKey : List Value) : Bytes :=
  (match tenantValue table primaryKey with
    | some tenant => encodeValue .asc tenant
    | none => []) ++
    (indexValues.zip index.keyDirections).flatMap
      (fun pair => encodeValue pair.2 pair.1)

/-- Whether a row's entry leaves its primary key out of the key. -/
def slotIsUnique (index : IndexDef) (indexValues : List Value) : Bool :=
  index.unique && !indexValues.any Value.isNull

/-- What an index key holds after its header. -/
def entryBytes (table : TableDef) (index : IndexDef)
    (indexValues primaryKey : List Value) : Bytes :=
  slotBytes table index indexValues primaryKey ++
    (if slotIsUnique index indexValues then [] else encode primaryKey)

theorem indexEntry_eq
    (table : TableDef) (index : IndexDef)
    (indexValues primaryKey : List Value) :
    indexEntry table index indexValues primaryKey = {
      key := header INDEX_SPACE index.id ++
        entryBytes table index indexValues primaryKey
      value := if slotIsUnique index indexValues then encode primaryKey else []
      enforcesUniqueness := slotIsUnique index indexValues } := by
  rw [indexEntry, entryBytes, slotBytes, slotIsUnique]
  cases tenantValue table primaryKey with
  | none
  | some tenant =>
      split
      · next isUnique => simp [isUnique]
      · next notUnique => simp [notUnique]

/-- A key of an index. -/
def OfIndex (id : IndexId) (key : Bytes) : Prop :=
  ∃ bytes, key = header INDEX_SPACE id ++ bytes

theorem indexEntry_ofIndex
    (table : TableDef) (index : IndexDef)
    (indexValues primaryKey : List Value) :
    OfIndex index.id (indexEntry table index indexValues primaryKey).key := by
  rw [indexEntry_eq]
  exact ⟨_, rfl⟩

theorem OfIndex.unique
    {id id' : IndexId} {key : Bytes} (first : OfIndex id key)
    (second : OfIndex id' key) :
    id = id' := by
  obtain ⟨bytes, isKey⟩ := first
  obtain ⟨bytes', isKey'⟩ := second
  exact (header_append_inj (isKey.symm.trans isKey')).2.1

theorem not_ofIndex_rowKey
    (table : TableDef) (primaryKey : List Value) (id : IndexId) :
    ¬OfIndex id (rowKey table primaryKey) := by
  rintro ⟨bytes, same⟩
  have sameSpace := (header_append_inj same).1
  exact absurd sameSpace (by decide)

end Keys

section

variable [Platform]

section

variable
  {table : TableDef}
  {index : IndexDef}
  {row : Row}
  {entry : Keys.IndexEntry}

theorem mem_admittedEntries :
    entry ∈ admittedEntries table index row ↔
      index.admits row = true ∧ ∃ values ∈ index.keySets row,
        entry = Keys.indexEntry table index values (row.primaryKeyValues table) := by
  rw [admittedEntries]
  split
  · next admits =>
      rw [entriesFor, mem_map]
      constructor
      · rintro ⟨values, member, rfl⟩
        exact ⟨admits, values, member, rfl⟩
      · rintro ⟨_, values, member, rfl⟩
        exact ⟨values, member, rfl⟩
  · next refuses =>
      constructor
      · intro member
        cases member
      · rintro ⟨admits, _⟩
        exact absurd admits refuses

theorem ofIndex_of_mem_admittedEntries
    (member : entry ∈ admittedEntries table index row) :
    Keys.OfIndex index.id entry.key := by
  obtain ⟨_, values, _, rfl⟩ := mem_admittedEntries.mp member
  exact Keys.indexEntry_ofIndex ..

end

end

end SlateOrm
