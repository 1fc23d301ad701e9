import SlateOrm.StoredRows
import SlateOrm.TupleSpelling

namespace SlateOrm

open List Keys

/-!
# The key space of a catalog

A key is a row's, an index entry's or that of a table's schema state.  Two index
entries share a key when one index holds them for one tenant with equal values,
and either they are of one row or the index is unique; and the keys that begin
with a table's, an index's or a tenant's bytes are its own.  An entry is decoded
to what it was made of, unless a computed value in it does not fit its encoding.
-/

/-- Values of the given types, or nulls. -/
def TypedAs (values : List Value) (types : List ValueType) : Prop :=
  List.Forall₂ (fun value type => value.valueType = some type ∨ value = .null)
    values types

variable {types : List ValueType}

theorem TypedAs.length_eq
    {values : List Value} (typed : TypedAs values types) :
    values.length = types.length :=
  List.Forall₂.length_eq typed

theorem TypedAs.typed
    {values : List Value} (typed : TypedAs values types)
    (flat : ∀ value ∈ values, value.flat = true) :
    Typed values types := by
  induction typed with
  | nil => trivial
  | cons isType _ ih =>
      exact ⟨isType, flat _ (mem_cons_self ..), ih
        (fun value member => flat value (mem_cons_of_mem _ member))⟩

variable {value : Value}

theorem Value.flat_of_isKeyable
    (isKeyable : value.isKeyable = true) :
    value.flat = true := by
  cases value with
  | array elements => cases isKeyable
  | _ => rfl

variable {table : TableDef}

theorem TableDef.WellFormed.primaryKeyTypes
    (wellFormed : table.WellFormed) :
    ∀ type ∈ table.primaryKeyTypes, type ≠ .vector ∧ type ≠ .array := by
  intro type member
  obtain ⟨ordinal, inKey, rfl⟩ := mem_map.mp member
  obtain ⟨column, found, _, keyable, _⟩ := wellFormed.key ordinal inKey
  rw [found]
  exact ⟨keyable.notVector, keyable.notArray⟩

theorem Value.isKeyable_of_typed
    {type : ValueType}
    (typed : value.valueType = some type ∨ value = .null)
    (allowed : type ≠ .vector ∧ type ≠ .array) :
    value.isKeyable = true := by
  rcases typed with typed | rfl
  · cases value with
    | vector elements => exact absurd (Option.some.inj typed).symm allowed.1
    | array elements => exact absurd (Option.some.inj typed).symm allowed.2
    | _ => rfl
  · rfl

theorem TypedAs.isKeyable
    (wellFormed : table.WellFormed)
    {primaryKey : List Value}
    (typed : TypedAs primaryKey table.primaryKeyTypes) :
    ∀ value ∈ primaryKey, value.isKeyable = true := by
  have allowed := wellFormed.primaryKeyTypes
  intro value member
  generalize table.primaryKeyTypes = types at typed allowed
  induction typed with
  | nil => cases member
  | cons isType _ ih =>
      rcases mem_cons.mp member with rfl | inRest
      · exact Value.isKeyable_of_typed isType (allowed _ (mem_cons_self ..))
      · exact ih inRest (fun type inTypes => allowed type (mem_cons_of_mem _ inTypes))

/-! ## Rows and entries of a catalog -/

/-- A row of a catalog, named by its primary key. -/
structure KeyedRow (catalog : Catalog) where
  table : TableDef
  declared : table ∈ catalog.tables
  primaryKey : List Value
  typedKey : TypedAs primaryKey table.primaryKeyTypes

/-- A row of a catalog under values that an index may hold it under. -/
structure KeyedEntry (catalog : Catalog) extends KeyedRow catalog where
  index : IndexDef
  indexed : index ∈ table.indexes
  values : List Value
  typedValues : TypedAs values (table.indexKeyTypes index)

namespace KeyedEntry

variable {catalog : Catalog}

/-- The entry as it is stored. -/
def stored (entry : KeyedEntry catalog) : Keys.IndexEntry :=
  Keys.indexEntry entry.table entry.index entry.values entry.primaryKey

/-- The tenant whose entry it is. -/
def tenant (entry : KeyedEntry catalog) : Option Value :=
  Keys.tenantValue entry.table entry.primaryKey

/-- Decoding the stored entry gives back what it was made of. -/
def Undone (entry : KeyedEntry catalog) : Prop := ∃ values primaryKey,
    Keys.decodeIndexEntry entry.table entry.index entry.stored.key
      entry.stored.value = .ok (values, primaryKey) ∧
    (values == entry.values) = true ∧
    (primaryKey == entry.primaryKey) = true

/--
Entries of one index and one tenant with equal values that name one row, or
whose index is unique and whose values have no null.
-/
def SharesSlot (first second : KeyedEntry catalog) : Prop :=
  first.table = second.table ∧ first.index = second.index ∧
    (first.tenant == second.tenant) = true ∧
    ((first.primaryKey == second.primaryKey) = true ∧
        (first.values == second.values) = true ∨
      first.index.unique = true ∧ (first.values == second.values) = true ∧
        first.values.any Value.isNull = false)

end KeyedEntry

/-! ## Decoding an entry -/

theorem Value.isArray_canonical
    (value : Value) :
    value.canonical.isArray = value.isArray := by
  cases value with
  | u64 number =>
      rcases Value.ofI128_toNat number with ⟨signed, same, -⟩ | ⟨same, -⟩
      · rw [Value.canonical_u64, same]
        rfl
      · rw [Value.canonical_u64, same]
  | _ => rfl

theorem Value.flat_canonical
    (value : Value) :
    value.canonical.flat = value.flat := by
  cases value with
  | array elements =>
      rw [Value.canonical, Value.flat, Value.flat, Value.canonicalList_eq_map,
        all_map]
      congr 1
      funext element
      rw [Function.comp_apply, Value.isArray_canonical]
  | u64 number =>
      rcases Value.ofI128_toNat number with ⟨signed, same, -⟩ | ⟨same, -⟩
      · rw [Value.canonical_u64, same]
        rfl
      · rw [Value.canonical_u64, same]
  | _ => rfl

theorem recodes_of_canonical
    {values found : List Value}
    (recodes : ∀ value ∈ found, value.Recodes)
    (same : (found == values) = true) :
    ∀ value ∈ values, value.Recodes := by
  rw [Value.beq_list_iff_canonical] at same
  intro value member
  have mapped : value.canonical ∈ found.map Value.canonical := by
    rw [same]
    exact mem_map_of_mem member
  obtain ⟨other, inFound, equal⟩ := mem_map.mp mapped
  have recodesOther := recodes other inFound
  constructor
  · rw [← Value.flat_canonical, ← equal, Value.flat_canonical]
    exact recodesOther.flat
  · rw [← Row.fits_canonical, ← equal, Row.fits_canonical]
    exact recodesOther.fits

variable {rest : Bytes}

theorem recodes_of_decodePrefixWith
    {bytes : Bytes} {types : List ValueType} {directions : List Direction}
    {values : List Value}
    (success : decodePrefixWith bytes types directions = .ok (values, rest)) :
    ∀ value ∈ values, value.Recodes := by
  obtain ⟨⟨found, reader⟩, read, success⟩ := bind_eq_ok.mp success
  cases success
  obtain ⟨typed, fits⟩ := typed_of_readAll read
  intro value member
  refine ⟨?_, fits value member⟩
  clear read fits success
  induction types generalizing values with
  | nil =>
      cases values with
      | nil => cases member
      | cons _ _ => cases typed
  | cons type types ih =>
      cases values with
      | nil => cases member
      | cons first others =>
          rcases mem_cons.mp member with rfl | inOthers
          · exact typed.2.1
          · exact ih typed.2.2 inOthers

theorem any_isNull_decoded
    (values : List Value) :
    (values.map Value.decoded).any Value.isNull = values.any Value.isNull := by
  rw [any_map]
  congr 1
  funext value
  cases value <;> rfl

theorem beq_decoded
    {values : List Value}
    (fits : ∀ value ∈ values, value.fits = true) :
    (values.map Value.decoded == values) = true := by
  rw [Value.beq_list_iff_canonical, map_map, map_inj_left]
  intro value member
  rw [Function.comp_apply, Value.canonical_decoded,
    Value.coded_of_fits (fits value member)]

namespace Keys

/-- The bytes of an entry's tenant, if its table has tenants. -/
def tenantBytes (table : TableDef) (primaryKey : List Value) : Bytes :=
  ((tenantValue table primaryKey).map (encodeValue .asc)).getD []

theorem slotBytes_eq
    (table : TableDef) {index : IndexDef} {values : List Value}
    (length : values.length = index.keyDirections.length)
    (primaryKey : List Value) :
    slotBytes table index values primaryKey = tenantBytes table primaryKey ++
        encodeWith values index.keyDirections := by
  rw [slotBytes, tenantBytes, flatMap_zip_eq_encodeWith length]
  cases tenantValue table primaryKey <;> rfl

variable {primaryKey : List Value}

theorem exists_tenant
    (wellFormed : table.WellFormed)
    (typed : TypedAs primaryKey table.primaryKeyTypes) :
    ∃ tenant tenantType, primaryKey.head? = some tenant ∧
      table.primaryKeyTypes.head? = some tenantType ∧
      (tenant.valueType = some tenantType ∨ tenant = .null) ∧
      tenant.isKeyable = true := by
  have keyable := typed.isKeyable wellFormed
  have nonempty : table.primaryKeyTypes ≠ [] := by
    rw [TableDef.primaryKeyTypes, TableDef.keyTypes]
    simpa using wellFormed.keyNonempty
  generalize table.primaryKeyTypes = types at typed nonempty
  cases typed with
  | nil => exact absurd rfl nonempty
  | @cons tenant tenantType _ _ isType _ =>
      exact ⟨tenant, tenantType, rfl, rfl, isType, keyable tenant (mem_cons_self ..)⟩

theorem afterTenant_eq
    (wellFormed : table.WellFormed)
    (index : IndexDef) (typed : TypedAs primaryKey table.primaryKeyTypes)
    (rest : Bytes) :
    afterTenant table index (tenantBytes table primaryKey ++ rest) = .ok rest := by
  obtain ⟨tenant, tenantType, isFirst, isType, isTyped, isKeyable⟩ :=
    exists_tenant wellFormed typed
  rw [afterTenant.eq_def, tenantBytes, tenantValue, isType]
  cases table.tenantColumn with
  | none => rfl
  | some column =>
      have single : Typed [tenant] [tenantType] :=
        ⟨isTyped, Value.flat_of_isKeyable isKeyable, trivial⟩
      have read := decodePrefixWith_encodeWith single [] rest
      rw [encodeWith, encodeWith, append_nil] at read
      simp only [Option.isSome_some, if_true, isFirst, Option.map_some,
        Option.getD_some, decodePrefix]
      exact bind_eq_ok.mpr ⟨_, liftTuple_eq_ok.mpr read, rfl⟩

end Keys

namespace KeyedEntry

variable {catalog : Catalog}

theorem length_values
    (entry : KeyedEntry catalog) :
    entry.values.length = entry.index.keyDirections.length := by
  rw [entry.typedValues.length_eq, length_indexKeyTypes]

/-- An entry without arrays of arrays is decoded. -/
theorem decode_of_flat
    (wellFormed : catalog.WellFormed)
    (entry : KeyedEntry catalog)
    (flat : ∀ value ∈ entry.values, value.flat = true) :
    decodeIndexEntry entry.table entry.index entry.stored.key entry.stored.value =
      .ok (entry.values.map Value.decoded, entry.primaryKey.map Value.decoded) := by
  have table := wellFormed.tables entry.table entry.declared
  have keyable := entry.typedKey.isKeyable table
  have headerLength := length_header INDEX_SPACE entry.index.id
  have typedValues := entry.typedValues.typed flat
  have typedKey := entry.typedKey.typed
    (fun value member => Value.flat_of_isKeyable (keyable value member))
  have decodedKey := liftTuple_eq_ok.mpr (decode_encode typedKey)
  have read := liftTuple_eq_ok.mpr (decodePrefixWith_encodeWith typedValues
    entry.index.keyDirections
    (if slotIsUnique entry.index entry.values then []
      else encode entry.primaryKey))
  have tenant := afterTenant_eq table entry.index entry.typedKey
    (encodeWith entry.values entry.index.keyDirections ++
      (if slotIsUnique entry.index entry.values then []
        else encode entry.primaryKey))
  rw [stored, indexEntry_eq, entryBytes, slotBytes_eq _ entry.length_values,
    append_assoc, decodeIndexEntry]
  dsimp only
  rw [if_neg (by rw [length_append, headerLength]; omega), ← headerLength, drop_left]
  refine bind_eq_ok.mpr ⟨_, tenant, bind_eq_ok.mpr ⟨_, read, ?_⟩⟩
  have isSlot : (entry.index.unique && !entry.values.any Value.isNull) =
      slotIsUnique entry.index entry.values := rfl
  dsimp only
  rw [any_isNull_decoded, isSlot]
  cases isUnique : slotIsUnique entry.index entry.values with
  | true
  | false => exact bind_eq_ok.mpr ⟨_, decodedKey, rfl⟩

/-- An entry whose values are held in full is decoded to what it was made of. -/
theorem undone_of_recodes
    (wellFormed : catalog.WellFormed)
    (entry : KeyedEntry catalog)
    (recodes : ∀ value ∈ entry.values, value.Recodes) :
    entry.Undone :=
  ⟨_, _, entry.decode_of_flat wellFormed (fun value member =>
    (recodes value member).flat), beq_decoded (fun value member =>
    (recodes value member).fits), beq_decoded (fun value member =>
    Value.fits_of_isKeyable (entry.typedKey.isKeyable
      (wellFormed.tables entry.table entry.declared) value member))⟩

theorem recodes_of_undone
    {entry : KeyedEntry catalog} (undone : entry.Undone) :
    ∀ value ∈ entry.values, value.Recodes := by
  obtain ⟨values, primaryKey, success, sameValues, -⟩ := undone
  refine recodes_of_canonical ?_ sameValues
  rw [decodeIndexEntry] at success
  dsimp only at success
  split at success
  · cases success
  · obtain ⟨body, -, success⟩ := bind_eq_ok.mp success
    obtain ⟨⟨found, rest⟩, read, success⟩ := bind_eq_ok.mp success
    have isFound : found = values := by
      dsimp only at success
      split at success
      · split at success
        · cases success
        · obtain ⟨key, -, success⟩ := bind_eq_ok.mp success
          cases success
          rfl
      · split at success
        · cases success
        · obtain ⟨key, -, success⟩ := bind_eq_ok.mp success
          cases success
          rfl
    rw [← isFound]
    exact recodes_of_decodePrefixWith (liftTuple_eq_ok.mp read)

end KeyedEntry

/-! ## Keys of entries -/

variable {values values' : List Value}

theorem encodeWith_of_beq
    (same : (values == values') = true)
    (directions : List Direction) :
    encodeWith values directions = encodeWith values' directions := by
  rw [← encodeWith_canonical values, ← encodeWith_canonical values',
    (Value.beq_list_iff_canonical values values').mp same]

theorem any_isNull_of_beq
    (same : (values == values') = true) :
    values.any Value.isNull = values'.any Value.isNull := by
  have nulls (listed : List Value) : listed.any Value.isNull =
        (listed.map Value.canonical).any Value.isNull := by
    rw [any_map]
    congr 1
    funext value
    exact (Value.isNull_canonical value).symm
  rw [nulls values, nulls values',
    (Value.beq_list_iff_canonical values values').mp same]

theorem beq_of_coded
    (fits : ∀ value ∈ values, value.fits = true)
    (fits' : ∀ value ∈ values', value.fits = true)
    (same : values.map Value.coded = values'.map Value.coded) :
    (values == values') = true := by
  rw [Value.beq_list_iff_canonical, ← map_congr_left
    (fun value member => Value.coded_of_fits (fits value member)), ← map_congr_left
    (fun value member => Value.coded_of_fits (fits' value member)), same]

namespace Keys

variable {primaryKey primaryKey' : List Value}

theorem tenantBytes_append_inj
    (wellFormed : table.WellFormed)
    (typed : TypedAs primaryKey table.primaryKeyTypes)
    (typed' : TypedAs primaryKey' table.primaryKeyTypes) {rest' : Bytes}
    (same : tenantBytes table primaryKey ++ rest =
      tenantBytes table primaryKey' ++ rest') :
    (tenantValue table primaryKey == tenantValue table primaryKey') = true ∧
      rest = rest' := by
  obtain ⟨tenant, _, isFirst, -, -, isKeyable⟩ := exists_tenant wellFormed typed
  obtain ⟨tenant', _, isFirst', -, -, -⟩ := exists_tenant wellFormed typed'
  rw [tenantBytes, tenantBytes, tenantValue, tenantValue] at same
  rw [tenantValue, tenantValue]
  generalize table.tenantColumn = tenantColumn at same ⊢
  cases tenantColumn with
  | none => exact ⟨rfl, same⟩
  | some column =>
      simp only [isFirst, isFirst', Option.map_some, Option.getD_some] at same
      obtain ⟨sameTenant, sameRest⟩ := encodeValue_append_inj same
      refine ⟨?_, sameRest⟩
      have equal := Value.canonical_of_coded_keyable isKeyable
        ((encodeValue_eq_iff _ _ _).mp sameTenant.symm)
      simp only [isFirst, isFirst', Option.some_beq_some]
      exact (Value.beq_iff_canonical tenant tenant').mpr equal.symm

theorem tenantBytes_of_beq
    (same : (tenantValue table primaryKey == tenantValue table primaryKey') = true) :
    tenantBytes table primaryKey = tenantBytes table primaryKey' := by
  rw [tenantBytes, tenantBytes]
  cases first : tenantValue table primaryKey with
  | none =>
      cases second : tenantValue table primaryKey' with
      | none => rfl
      | some tenant' =>
          rw [first, second] at same
          cases same
  | some tenant =>
      cases second : tenantValue table primaryKey' with
      | none =>
          rw [first, second] at same
          cases same
      | some tenant' =>
          rw [first, second, Option.some_beq_some, Value.beq_iff_canonical] at same
          rw [Option.map_some, Option.map_some, Option.getD_some, Option.getD_some, ←
            encodeValue_canonical, same, encodeValue_canonical]

end Keys

namespace KeyedEntry

variable {catalog : Catalog}

theorem key_eq
    (entry : KeyedEntry catalog) :
    entry.stored.key = header INDEX_SPACE entry.index.id ++
        (tenantBytes entry.table entry.primaryKey ++
          (encodeWith entry.values entry.index.keyDirections ++
            (if slotIsUnique entry.index entry.values then []
              else encode entry.primaryKey))) := by
  rw [stored, indexEntry_eq, entryBytes,
    slotBytes_eq _ entry.length_values, append_assoc]

variable {first second : KeyedEntry catalog}

theorem key_of_sharesSlot
    (shares : first.SharesSlot second) :
    first.stored.key = second.stored.key := by
  obtain ⟨sameTable, sameIndex, sameTenant, slot⟩ := shares
  rw [key_eq, key_eq]
  have sameValues : (first.values == second.values) = true :=
    slot.elim And.right (fun unique => unique.2.1)
  rw [tenant, tenant, ← sameTable] at sameTenant
  rw [← sameTable, ← sameIndex, tenantBytes_of_beq sameTenant, encodeWith_of_beq
    sameValues, slotIsUnique, slotIsUnique, any_isNull_of_beq sameValues]
  rcases slot with ⟨sameKey, -⟩ | ⟨isUnique, -, noNull⟩
  · rw [encode, encode, encodeWith_of_beq sameKey]
  · rw [any_isNull_of_beq sameValues] at noNull
    simp [isUnique, noNull]

/-- Entries with one key share a slot, if their values are held in full. -/
theorem sharesSlot_of_key
    (wellFormed : catalog.WellFormed)
    (fits : ∀ value ∈ first.values, value.fits = true)
    (fits' : ∀ value ∈ second.values, value.fits = true)
    (same : first.stored.key = second.stored.key) :
    first.SharesSlot second := by
  rw [key_eq, key_eq] at same
  obtain ⟨-, sameId, same⟩ := header_append_inj same
  have length := first.length_values
  have length' := second.length_values
  obtain ⟨⟨table, declared, primaryKey, typedKey⟩, index, indexed, values,
    typedValues⟩ := first
  obtain ⟨⟨table', declared', primaryKey', typedKey'⟩, index', indexed',
    values', typedValues'⟩ := second
  dsimp only at same sameId length length' fits fits'
  obtain ⟨rfl, rfl⟩ := wellFormed.index_unique declared declared' indexed
    indexed' sameId
  have table' := wellFormed.tables table declared
  obtain ⟨sameTenant, same⟩ := tenantBytes_append_inj table' typedKey typedKey' same
  obtain ⟨sameValues, sameRest⟩ :=
    encodeWith_append_inj (length.trans length'.symm) same
  have equal := beq_of_coded fits fits' sameValues
  refine ⟨rfl, rfl, sameTenant, ?_⟩
  have sameSlot : slotIsUnique index values' = slotIsUnique index values := by
    rw [slotIsUnique, slotIsUnique, any_isNull_of_beq equal]
  rw [sameSlot] at sameRest
  cases isUnique : slotIsUnique index values with
  | true =>
      rw [slotIsUnique, Bool.and_eq_true, Bool.not_eq_true'] at isUnique
      exact .inr ⟨isUnique.1, equal, isUnique.2⟩
  | false =>
      rw [isUnique] at sameRest
      refine .inl ⟨?_, equal⟩
      rw [Value.beq_list_iff_canonical]
      exact canonical_of_coded_keys (typedKey'.isKeyable table')
        (coded_of_encode sameRest)

end KeyedEntry

/-! ## Ranges of keys -/

/-- What every row key of a tenant starts with, on a table with tenants. -/
def Keys.tableTenantPrefix (table : TableDef) (tenant : Value) : Option Bytes :=
  match table.tenantColumn with
  | none => none
  | some _ => some (tablePrefix table ++ encodeValue .asc tenant)

/-- A key that the store of a catalog may hold. -/
inductive CatalogKey (catalog : Catalog) where
  | ofRow (row : KeyedRow catalog)
  | ofEntry (entry : KeyedEntry catalog)
  | ofState (table : TableId)

/-- The key as it is stored. -/
def CatalogKey.bytes {catalog : Catalog} : CatalogKey catalog → Bytes
  | ofRow row => Keys.rowKey row.table row.primaryKey
  | ofEntry entry => entry.stored.key
  | ofState table => Keys.metaKey table

/-- A tenant that a table may have rows of. -/
structure TenantOf (table : TableDef) where
  value : Value
  tenanted : table.tenantColumn.isSome = true
  typed : ∃ type, table.primaryKeyTypes.head? = some type ∧
    (value.valueType = some type ∨ value = .null)

/-- The range of a table or of an index, or of a tenant's share of it. -/
inductive CatalogRange (catalog : Catalog) where
  | ofTable (table : TableDef) (declared : table ∈ catalog.tables)
      (tenant : Option (TenantOf table))
  | ofIndex (table : TableDef) (declared : table ∈ catalog.tables)
      (index : IndexDef) (indexed : index ∈ table.indexes)
      (tenant : Option (TenantOf table))

namespace CatalogRange

variable {catalog : Catalog}

/-- What every key of the range starts with. -/
def bytes : CatalogRange catalog → Bytes
  | ofTable table _ none => Keys.tablePrefix table
  | ofTable table _ (some tenant) =>
      (Keys.tableTenantPrefix table tenant.value).getD (Keys.tablePrefix table)
  | ofIndex table _ index _ tenant =>
      Keys.indexPrefix table index (tenant.map TenantOf.value)

/-- The range as it is scanned. -/
def keys (range : CatalogRange catalog) : KeyRange := KeyRange.ofPrefix range.bytes

/-- The keys of a table, of an index or of one tenant in it. -/
def Owns : CatalogRange catalog → CatalogKey catalog → Prop
  | ofTable table _ tenant, .ofRow row =>
      row.table = table ∧ ∀ wanted, tenant = some wanted →
        (Keys.tenantValue row.table row.primaryKey == some wanted.value) = true
  | ofIndex table _ index _ tenant, .ofEntry entry =>
      entry.table = table ∧ entry.index = index ∧ ∀ wanted, tenant = some wanted →
          (entry.tenant == some wanted.value) = true
  | _, _ => False

/-- Ranges of different tables or indexes, or of different tenants. -/
def Apart : CatalogRange catalog → CatalogRange catalog → Prop
  | ofTable table _ tenant, .ofTable table' _ tenant' =>
      table ≠ table' ∨ ∃ first second, tenant = some first ∧
        tenant' = some second ∧ (first.value == second.value) = false
  | ofIndex _ _ index _ tenant, .ofIndex _ _ index' _ tenant' =>
      index ≠ index' ∨ ∃ first second, tenant = some first ∧
        tenant' = some second ∧ (first.value == second.value) = false
  | _, _ => True

end CatalogRange

namespace Keys

theorem header_isPrefix_iff
    {space space' : UInt8} {id id' : UInt32} {rest' : Bytes} :
    header space id ++ rest <+: header space' id' ++ rest' ↔
      space = space' ∧ id = id' ∧ rest <+: rest' := by
  constructor
  · rintro ⟨between, same⟩
    rw [append_assoc] at same
    obtain ⟨sameSpace, sameId, sameRest⟩ := header_append_inj same
    exact ⟨sameSpace, sameId, between, sameRest⟩
  · rintro ⟨rfl, rfl, between, rfl⟩
    exact ⟨between, by rw [append_assoc]⟩

theorem encodeValue_isPrefix_iff
    {first : Value}
    (keyable : first.isKeyable = true) :
    encodeValue .asc value <+: encodeValue .asc first ++ rest ↔
      (first == value) = true := by
  rw [Value.beq_iff_canonical]
  constructor
  · rintro ⟨between, same⟩
    have sameBytes := (encodeValue_append_inj same).1
    exact (Value.canonical_of_coded_keyable keyable
      ((encodeValue_eq_iff _ _ _).mp sameBytes)).symm
  · intro equal
    rw [← encodeValue_canonical, ← equal, encodeValue_canonical]
    exact prefix_append _ _

/-- What the keys of a tenant share, once their header is taken off. -/
def scopeBytes (tenant : Option Value) : Bytes :=
  (tenant.map (encodeValue .asc)).getD []

theorem scopeBytes_isPrefix_iff
    (wellFormed : table.WellFormed)
    {primaryKey : List Value} (typed : TypedAs primaryKey table.primaryKeyTypes)
    (tenant : Option (TenantOf table)) (rest : Bytes) :
    scopeBytes (tenant.map TenantOf.value) <+: tenantBytes table primaryKey ++ rest ↔
      ∀ wanted, tenant = some wanted →
        (tenantValue table primaryKey == some wanted.value) = true := by
  cases tenant with
  | none => simp [scopeBytes]
  | some tenant =>
      obtain ⟨first, _, isFirst, -, -, isKeyable⟩ := exists_tenant wellFormed typed
      obtain ⟨column, isColumn⟩ := Option.isSome_iff_exists.mp tenant.tenanted
      have isTenant : tenantValue table primaryKey = some first := by
        rw [tenantValue, isColumn, ← isFirst]
      rw [tenantBytes, isTenant]
      simp only [scopeBytes, Option.map_some, Option.getD_some,
        Option.some_beq_some, Option.some.injEq, forall_eq']
      exact encodeValue_isPrefix_iff isKeyable

end Keys

namespace CatalogRange

variable {catalog : Catalog}

theorem bytes_ofTable
    (table : TableDef)
    (declared : table ∈ catalog.tables)
    (tenant : Option (TenantOf table)) :
    (ofTable table declared tenant).bytes = header ROW_SPACE table.id ++
        scopeBytes (tenant.map TenantOf.value) := by
  cases tenant with
  | none =>
      rw [bytes, tablePrefix, Option.map_none, scopeBytes,
        Option.map_none, Option.getD_none, append_nil]
  | some tenant =>
      obtain ⟨column, isColumn⟩ := Option.isSome_iff_exists.mp tenant.tenanted
      rw [bytes, tableTenantPrefix, isColumn]
      rfl

theorem bytes_ofIndex
    (table : TableDef)
    (declared : table ∈ catalog.tables)
    (index : IndexDef)
    (indexed : index ∈ table.indexes)
    (tenant : Option (TenantOf table)) :
    (ofIndex table declared index indexed tenant).bytes = header INDEX_SPACE index.id ++
        scopeBytes (tenant.map TenantOf.value) := by
  cases tenant with
  | none =>
      rw [bytes, indexPrefix.eq_def]
      cases table.tenantColumn <;> rfl
  | some tenant =>
      obtain ⟨column, isColumn⟩ := Option.isSome_iff_exists.mp tenant.tenanted
      rw [bytes, indexPrefix.eq_def, isColumn]
      rfl

theorem rowKey_eq
    (wellFormed : table.WellFormed)
    {primaryKey : List Value}
    (typed : TypedAs primaryKey table.primaryKeyTypes) :
    ∃ rest, rowKey table primaryKey = header ROW_SPACE table.id ++
        (tenantBytes table primaryKey ++ rest) := by
  obtain ⟨tenant, -, isFirst, -⟩ := exists_tenant wellFormed typed
  obtain ⟨others, rfl⟩ := head?_eq_some_iff.mp isFirst
  rw [rowKey, tablePrefix, tenantBytes, tenantValue]
  cases table.tenantColumn with
  | none => exact ⟨encode (tenant :: others), rfl⟩
  | some column => exact ⟨encode others, rfl⟩

/-- A range holds exactly the keys of its table, its index or its tenant. -/
theorem contains_keys_iff
    (wellFormed : catalog.WellFormed)
    (range : CatalogRange catalog) (key : CatalogKey catalog) :
    range.keys.contains key.bytes = true ↔ range.Owns key := by
  rw [keys, KeyRange.contains_ofPrefix]
  cases range with
  | ofTable table declared tenant =>
      rw [bytes_ofTable]
      cases key with
      | ofRow row =>
          obtain ⟨rest, isKey⟩ := rowKey_eq
            (wellFormed.tables row.table row.declared) row.typedKey
          rw [CatalogKey.bytes, isKey, header_isPrefix_iff, Owns]
          constructor
          · rintro ⟨-, sameId, begins⟩
            have sameTable := wellFormed.tableIds row.table row.declared table
              declared sameId.symm
            refine ⟨sameTable, ?_⟩
            subst sameTable
            exact (scopeBytes_isPrefix_iff (wellFormed.tables row.table
              declared) row.typedKey tenant rest).mp begins
          · rintro ⟨rfl, wanted⟩
            exact ⟨rfl, rfl, (scopeBytes_isPrefix_iff (wellFormed.tables row.table
              declared) row.typedKey tenant rest).mpr wanted⟩
      | ofEntry entry =>
          rw [CatalogKey.bytes, entry.key_eq, header_isPrefix_iff]
          exact ⟨fun same => absurd same.1 (by decide), False.elim⟩
      | ofState id =>
          rw [CatalogKey.bytes, metaKey, ← append_nil (header META_SPACE id),
            header_isPrefix_iff]
          exact ⟨fun same => absurd same.1 (by decide), False.elim⟩
  | ofIndex table declared index indexed tenant =>
      rw [bytes_ofIndex]
      cases key with
      | ofRow row =>
          obtain ⟨rest, isKey⟩ := rowKey_eq
            (wellFormed.tables row.table row.declared) row.typedKey
          rw [CatalogKey.bytes, isKey, header_isPrefix_iff]
          exact ⟨fun same => absurd same.1 (by decide), False.elim⟩
      | ofEntry entry =>
          rw [CatalogKey.bytes, entry.key_eq, header_isPrefix_iff, Owns,
            KeyedEntry.tenant]
          constructor
          · rintro ⟨-, sameId, begins⟩
            obtain ⟨sameTable, sameIndex⟩ := wellFormed.index_unique
              entry.declared declared entry.indexed indexed sameId.symm
            refine ⟨sameTable, sameIndex, ?_⟩
            subst sameTable
            exact (scopeBytes_isPrefix_iff (wellFormed.tables entry.table
              declared) entry.typedKey tenant _).mp begins
          · rintro ⟨rfl, rfl, wanted⟩
            exact ⟨rfl, rfl, (scopeBytes_isPrefix_iff (wellFormed.tables entry.table
              declared) entry.typedKey tenant _).mpr wanted⟩
      | ofState id =>
          rw [CatalogKey.bytes, metaKey, ← append_nil (header META_SPACE id),
            header_isPrefix_iff]
          exact ⟨fun same => absurd same.1 (by decide), False.elim⟩

theorem beq_of_scopeBytes
    {table' : TableDef}
    (wellFormed : table.WellFormed)
    {first : TenantOf table} {second : TenantOf table'} {key : Bytes}
    (begins : scopeBytes (some first.value) <+: key)
    (begins' : scopeBytes (some second.value) <+: key) :
    (first.value == second.value) = true := by
  obtain ⟨type, isType, typed⟩ := first.typed
  have isKeyable := Value.isKeyable_of_typed typed
    (wellFormed.primaryKeyTypes type (mem_of_head? isType))
  obtain ⟨rest, rfl⟩ := begins
  exact (encodeValue_isPrefix_iff isKeyable).mp begins'

/-- Ranges that are apart have no bytes in common. -/
theorem disjoint_keys
    (wellFormed : catalog.WellFormed)
    {first second : CatalogRange catalog} (apart : first.Apart second)
    (key : Bytes) :
    ¬(first.keys.contains key = true ∧ second.keys.contains key = true) := by
  rw [keys, keys, KeyRange.contains_ofPrefix, KeyRange.contains_ofPrefix]
  rintro ⟨⟨rest, isKey⟩, ⟨rest', isKey'⟩⟩
  have same := isKey.trans isKey'.symm
  cases first with
  | ofTable table declared tenant =>
      cases second with
      | ofTable table' declared' tenant' =>
          rw [bytes_ofTable, bytes_ofTable, append_assoc, append_assoc] at same
          obtain ⟨-, sameId, sameRest⟩ := header_append_inj same
          rcases apart with different | ⟨one, other, rfl, rfl, unequal⟩
          · exact different (wellFormed.tableIds table declared table' declared' sameId)
          · have equal := beq_of_scopeBytes (wellFormed.tables table declared)
              ⟨rest, rfl⟩ ⟨rest', sameRest.symm⟩
            rw [equal] at unequal
            cases unequal
      | ofIndex table' declared' index indexed tenant' =>
          rw [bytes_ofTable, bytes_ofIndex, append_assoc, append_assoc] at same
          exact absurd (header_append_inj same).1 (by decide)
  | ofIndex table declared index indexed tenant =>
      cases second with
      | ofTable table' declared' tenant' =>
          rw [bytes_ofTable, bytes_ofIndex, append_assoc, append_assoc] at same
          exact absurd (header_append_inj same).1 (by decide)
      | ofIndex table' declared' index' indexed' tenant' =>
          rw [bytes_ofIndex, bytes_ofIndex, append_assoc, append_assoc] at same
          obtain ⟨-, sameId, sameRest⟩ := header_append_inj same
          rcases apart with different | ⟨one, other, rfl, rfl, unequal⟩
          · exact different (wellFormed.index_unique declared declared' indexed
              indexed' sameId).2
          · have equal := beq_of_scopeBytes (wellFormed.tables table declared)
              ⟨rest, rfl⟩ ⟨rest', sameRest.symm⟩
            rw [equal] at unequal
            cases unequal

end CatalogRange

/-! ## The key space -/

/--
Two entries of a catalog are decoded to what they were made of and share a key
exactly when they share a slot, and the ranges of the catalog hold their own
keys and keep apart.
-/
structure KeySpace {catalog : Catalog}
    (first second : KeyedEntry catalog) : Prop where
  undone : first.Undone ∧ second.Undone
  keys : first.stored.key = second.stored.key ↔ first.SharesSlot second
  exact : ∀ (range : CatalogRange catalog) (key : CatalogKey catalog),
    range.keys.contains key.bytes = true ↔ range.Owns key
  disjoint : ∀ range other : CatalogRange catalog, range.Apart other →
    ∀ key, ¬(range.keys.contains key = true ∧ other.keys.contains key = true)

/-- The key space holds up exactly when encodings hold the values in full. -/
theorem keySpace_iff
    {tables : List TableDef} {catalog : Catalog}
    (built : ∀ table ∈ tables, ∃ builder : TableBuilder, builder.build = .ok table)
    (made : Catalog.fromTables tables = .ok catalog)
    (first second : KeyedEntry catalog) :
    KeySpace first second ↔ ∀ value ∈ first.values ++ second.values, value.Recodes := by
  have wellFormed := Catalog.wellFormed_of_fromTables built made
  constructor
  · rintro ⟨⟨undone, undone'⟩, -, -, -⟩ value member
    rcases mem_append.mp member with inFirst | inSecond
    · exact KeyedEntry.recodes_of_undone undone value inFirst
    · exact KeyedEntry.recodes_of_undone undone' value inSecond
  · intro recodes
    have recodesFirst : ∀ value ∈ first.values, value.Recodes :=
      fun value member => recodes value (mem_append_left _ member)
    have recodesSecond : ∀ value ∈ second.values, value.Recodes :=
      fun value member => recodes value (mem_append_right _ member)
    refine ⟨⟨first.undone_of_recodes wellFormed recodesFirst,
      second.undone_of_recodes wellFormed recodesSecond⟩, ⟨?_, ?_⟩, ?_, ?_⟩
    · exact KeyedEntry.sharesSlot_of_key wellFormed
        (fun value member => (recodesFirst value member).fits)
        (fun value member => (recodesSecond value member).fits)
    · exact KeyedEntry.key_of_sharesSlot
    · exact CatalogRange.contains_keys_iff wellFormed
    · intro range other apart key
      exact CatalogRange.disjoint_keys wellFormed apart key

/-! ## A table of memos -/

/-- Memos of tenants, with a unique title and a computed index of arrays. -/
def memosBuilder : TableBuilder where
  id := 1
  name := "memos"
  columns := [
    { name := "owner", type := .str },
    { name := "id", type := .i64 },
    { name := "title", type := .str }]
  primaryKey := ["owner", "id"]
  indexes := [
    { id := 1, name := "titles", columns := [("title", .desc)],
      unique := true },
    { id := 2, name := "nested",
      expression := some ⟨.scalar (.literal (.array [.array []])), .array, .asc⟩ }]
  tenantColumn := some "owner"

/-- The index of the titles. -/
def titles : IndexDef where
  id := 1
  name := "titles"
  columns := [⟨2, .desc⟩]
  unique := true
  predicate := none
  expression := none
  text := false

/-- The index of an array inside an array. -/
def nested : IndexDef where
  id := 2
  name := "nested"
  columns := []
  unique := false
  predicate := none
  expression := some ⟨.scalar (.literal (.array [.array []])), .array, .asc⟩
  text := false

/-- The table of the memos. -/
def memos : TableDef where
  id := 1
  name := "memos"
  columns := [ ⟨"owner", .str, false, 0, none, none, [], 0, none, none⟩,
    ⟨"id", .i64, false, 0, none, none, [], 0, none, none⟩,
    ⟨"title", .str, false, 0, none, none, [], 0, none, none⟩]
  primaryKey := [0, 1]
  bodyColumns := [2]
  storedColumns := [2]
  indexes := [titles, nested]
  checks := []
  foreignKeys := []
  tenantColumn := some 0
  softDelete := none
  schemaVersion := 0

/-- The entry of a memo's title. -/
def titleEntry (id : Int64) (title : String) : KeyedEntry ⟨[memos]⟩ where
  table := memos
  declared := List.mem_singleton_self _
  primaryKey := [.str "ann", .i64 id]
  typedKey := .cons (.inl rfl) (.cons (.inl rfl) .nil)
  index := titles
  indexed := List.mem_cons_self ..
  values := [.str title]
  typedValues := .cons (.inl rfl) .nil

/-- The entry of a memo in the index of an array inside an array. -/
def nestedEntry : KeyedEntry ⟨[memos]⟩ where
  table := memos
  declared := List.mem_singleton_self _
  primaryKey := [.str "ann", .i64 1]
  typedKey := .cons (.inl rfl) (.cons (.inl rfl) .nil)
  index := nested
  indexed := List.mem_cons_of_mem _ (List.mem_singleton_self _)
  values := [.array [.array []]]
  typedValues := .cons (.inl rfl) .nil

theorem built_memos :
    ∀ table ∈ [memos], ∃ builder : TableBuilder, builder.build = .ok table := by
  intro table member
  rw [mem_singleton.mp member]
  exact ⟨memosBuilder, rfl⟩

/-- Two memos with one title have one key in the index of the titles. -/
theorem keySpace_titles :
    KeySpace (titleEntry 1 "a") (titleEntry 2 "a") := by
  refine (keySpace_iff built_memos rfl _ _).mpr ?_
  intro value member
  have isTitle : value = .str "a" := by
    simpa [titleEntry] using member
  rw [isTitle]
  exact ⟨rfl, rfl⟩

/-- An array inside an array is indexed and never decoded. -/
theorem not_keySpace_nested :
    ¬∀ (tables : List TableDef) (catalog : Catalog), (∀ table ∈ tables,
        ∃ builder : TableBuilder, builder.build = .ok table) →
      Catalog.fromTables tables = .ok catalog →
        ∀ first second : KeyedEntry catalog, KeySpace first second := by
  intro always
  have space := always [memos] ⟨[memos]⟩ built_memos rfl nestedEntry nestedEntry
  have recodes := KeyedEntry.recodes_of_undone space.undone.1
    (.array [.array []]) (mem_singleton_self _)
  cases recodes.flat

end SlateOrm
