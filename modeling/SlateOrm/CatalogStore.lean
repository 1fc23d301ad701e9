import SlateOrm.RowReading
import SlateOrm.DerivedStore

namespace SlateOrm

open List Keys

/-!
# The rows of a catalog

The rows of a catalog's tables and their index entries share one key space.
Ids tell tables and indexes apart, and within an index the encoding tells the
indexed values and the primary key apart, so an entry says which row it is of.
-/

/-! ## Catalogs -/

/-- What holds of every catalog of built tables. -/
structure Catalog.WellFormed (catalog : Catalog) : Prop where
  tables : ∀ table ∈ catalog.tables, table.WellFormed
  tableIds : ∀ table ∈ catalog.tables, ∀ other ∈ catalog.tables,
    table.id = other.id → table = other
  indexIds : ∀ table ∈ catalog.tables, ∀ other ∈ catalog.tables,
    ∀ index ∈ table.indexes, ∀ otherIndex ∈ other.indexes,
      index.id = otherIndex.id → table = other

namespace Catalog

variable {catalog extended : Catalog} {tables : List TableDef}

/-- Adding a table keeps a catalog well formed. -/
theorem wellFormed_of_insert
    {table : TableDef}
    (before : catalog.WellFormed)
    (wellFormed : table.WellFormed)
    (inserted : catalog.insert table = .ok extended) :
    extended.WellFormed := by
  rw [insert] at inserted
  split at inserted
  · cases inserted
  · next isNew =>
      obtain ⟨_, checked, inserted⟩ := bind_eq_ok.mp inserted
      replace inserted := ok_of_bind inserted
      cases inserted
      have freshId : ∀ other ∈ catalog.tables, other.id ≠ table.id := by
        intro other member sameId
        have differs := find?_eq_none.mp isNew other member
        simp [sameId] at differs
      have freshIndexes : ∀ index ∈ table.indexes,
          ∀ other ∈ catalog.tables, ∀ otherIndex ∈ other.indexes,
            otherIndex.id ≠ index.id := by
        intro index member other inCatalog otherIndex otherMember sameId
        have free := checkEach_eq_ok checked index member
        rw [checkIndexId] at free
        split at free
        · cases free
        · next noOwner =>
            rw [indexOwner, findSome?_eq_none_iff] at noOwner
            have noIndex := noOwner other inCatalog
            rw [Option.map_eq_none_iff, find?_eq_none] at noIndex
            exact noIndex otherIndex otherMember (beq_iff_eq.mpr sameId)
      refine ⟨?_, ?_, ?_⟩
      · intro other member
        rcases mem_append.mp member with older | isLast
        · exact before.tables other older
        · rw [mem_singleton.mp isLast]
          exact wellFormed
      · intro first firstMember second secondMember sameId
        rcases mem_append.mp firstMember with firstOlder | firstLast
        · rcases mem_append.mp secondMember with
            secondOlder | secondLast
          · exact before.tableIds first firstOlder second secondOlder sameId
          · rw [mem_singleton.mp secondLast] at sameId
            exact absurd sameId (freshId first firstOlder)
        · obtain rfl := mem_singleton.mp firstLast
          rcases mem_append.mp secondMember with
            secondOlder | secondLast
          · exact absurd sameId.symm (freshId second secondOlder)
          · exact (mem_singleton.mp secondLast).symm
      · intro first firstMember second secondMember index inFirst otherIndex
          inSecond sameId
        rcases mem_append.mp firstMember with firstOlder | firstLast
        · rcases mem_append.mp secondMember with
            secondOlder | secondLast
          · exact before.indexIds first firstOlder second secondOlder index
              inFirst otherIndex inSecond sameId
          · obtain rfl := mem_singleton.mp secondLast
            exact absurd sameId (freshIndexes otherIndex inSecond first
              firstOlder index inFirst)
        · obtain rfl := mem_singleton.mp firstLast
          rcases mem_append.mp secondMember with
            secondOlder | secondLast
          · exact absurd sameId.symm (freshIndexes index inFirst second
              secondOlder otherIndex inSecond)
          · exact (mem_singleton.mp secondLast).symm

theorem wellFormed_of_insertAll
    (before : catalog.WellFormed)
    (built : ∀ table ∈ tables, ∃ builder : TableBuilder, builder.build = .ok table)
    (inserted : insertAll catalog tables = .ok extended) :
    extended.WellFormed := by
  induction tables generalizing catalog with
  | nil =>
      cases inserted
      exact before
  | cons table rest ih =>
      obtain ⟨between, insertedFirst, insertedRest⟩ := bind_eq_ok.mp inserted
      obtain ⟨builder, isBuilt⟩ := built table (mem_cons_self ..)
      exact ih (wellFormed_of_insert before (TableBuilder.build_wellFormed
        isBuilt) insertedFirst) (fun other member => built other
        (mem_cons_of_mem _ member)) insertedRest

theorem wellFormed_of_fromTables
    {catalog : Catalog}
    (built : ∀ table ∈ tables, ∃ builder : TableBuilder, builder.build = .ok table)
    (made : fromTables tables = .ok catalog) :
    catalog.WellFormed := by
  obtain ⟨inserted, insertedAll, made⟩ := bind_eq_ok.mp made
  replace made := ok_of_bind made
  cases made
  have start : Catalog.WellFormed {} := ⟨fun _ member => absurd member not_mem_nil,
      fun _ member => absurd member not_mem_nil,
      fun _ member => absurd member not_mem_nil⟩
  exact wellFormed_of_insertAll start built insertedAll

theorem nodup_of_insertAll
    (before : (catalog.tables.map TableDef.id).Nodup)
    (inserted : insertAll catalog tables = .ok extended) :
    (extended.tables.map TableDef.id).Nodup := by
  induction tables generalizing catalog with
  | nil =>
      cases inserted
      exact before
  | cons table rest ih =>
      obtain ⟨between, insertedFirst, insertedRest⟩ := bind_eq_ok.mp inserted
      refine ih ?_ insertedRest
      rw [insert] at insertedFirst
      split at insertedFirst
      · cases insertedFirst
      · next isNew =>
          replace insertedFirst := ok_of_bind insertedFirst
          replace insertedFirst := ok_of_bind insertedFirst
          cases insertedFirst
          rw [map_append, nodup_append]
          refine ⟨before, nodup_singleton _, ?_⟩
          intro id isOld id' isNewId same
          obtain ⟨other, member, rfl⟩ := mem_map.mp isOld
          have differs := find?_eq_none.mp isNew other member
          rw [same, mem_singleton.mp isNewId] at differs
          simp at differs

theorem nodup_of_fromTables
    {catalog : Catalog}
    (made : fromTables tables = .ok catalog) :
    (catalog.tables.map TableDef.id).Nodup := by
  obtain ⟨inserted, insertedAll, made⟩ := bind_eq_ok.mp made
  replace made := ok_of_bind made
  cases made
  have start : ((Catalog.tables {}).map TableDef.id).Nodup := nodup_nil
  exact nodup_of_insertAll start insertedAll

theorem WellFormed.index_unique
    {catalog : Catalog}
    (wellFormed : catalog.WellFormed)
    {table other : TableDef} {index otherIndex : IndexDef}
    (inCatalog : table ∈ catalog.tables)
    (otherInCatalog : other ∈ catalog.tables)
    (member : index ∈ table.indexes)
    (otherMember : otherIndex ∈ other.indexes)
    (sameId : index.id = otherIndex.id) :
    table = other ∧ index = otherIndex := by
  obtain rfl := wellFormed.indexIds table inCatalog other otherInCatalog
    index member otherIndex otherMember sameId
  refine ⟨rfl, ?_⟩
  exact inj_on_of_nodup_map
    (wellFormed.tables table inCatalog).indexIds member otherMember sameId

end Catalog

/-! ## Entries -/

theorem flatMap_zip_eq_encodeWith
    {values : List Value} {directions : List Direction}
    (sameLength : values.length = directions.length) :
    (values.zip directions).flatMap (fun pair => encodeValue pair.2 pair.1) =
      encodeWith values directions := by
  induction values generalizing directions with
  | nil => rfl
  | cons value rest ih =>
      cases directions with
      | nil => cases sameLength
      | cons direction others =>
          rw [zip_cons_cons, flatMap_cons, encodeWith, ih (by simpa using sameLength)]
          rfl

namespace Keys

theorem isSome_tenantValue
    (table : TableDef) {primaryKey : List Value}
    (nonempty : primaryKey ≠ []) :
    (tenantValue table primaryKey).isSome = table.tenantColumn.isSome := by
  rw [tenantValue]
  cases table.tenantColumn with
  | none => rfl
  | some column =>
      cases primaryKey with
      | nil => exact absurd rfl nonempty
      | cons tenant rest => rfl

variable {index : IndexDef} {values values' primaryKey primaryKey' : List Value}

/-- The bytes of a slot say what is indexed, whatever follows them. -/
theorem coded_of_slotBytes
    {table : TableDef} {rest rest' : Bytes}
    (length : values.length = index.keyDirections.length)
    (length' : values'.length = index.keyDirections.length)
    (nonempty : primaryKey ≠ [])
    (nonempty' : primaryKey' ≠ [])
    (same : slotBytes table index values primaryKey ++ rest =
      slotBytes table index values' primaryKey' ++ rest') :
    values.map Value.coded = values'.map Value.coded ∧ rest = rest' := by
  rw [slotBytes, slotBytes, flatMap_zip_eq_encodeWith length,
    flatMap_zip_eq_encodeWith length', append_assoc, append_assoc] at same
  -- Both entries have a tenant, or neither has.
  have sameRest : encodeWith values index.keyDirections ++ rest =
      encodeWith values' index.keyDirections ++ rest' := by
    have tenants := isSome_tenantValue table nonempty
    rw [← isSome_tenantValue table nonempty'] at tenants
    cases tenant : tenantValue table primaryKey with
    | none =>
        cases tenant' : tenantValue table primaryKey' with
        | none =>
            rw [tenant, tenant'] at same
            exact same
        | some value' =>
            rw [tenant, tenant'] at tenants
            cases tenants
    | some value =>
        cases tenant' : tenantValue table primaryKey' with
        | none =>
            rw [tenant, tenant'] at tenants
            cases tenants
        | some value' =>
            rw [tenant, tenant'] at same
            exact (encodeValue_append_inj same).2
  exact encodeWith_append_inj (length.trans length'.symm) sameRest

theorem slotIsUnique_of_coded
    {values values' : List Value}
    (coded : values.map Value.coded = values'.map Value.coded) :
    slotIsUnique index values = slotIsUnique index values' := by
  rw [slotIsUnique, slotIsUnique, any_isNull_of_coded coded]

/--
An entry's key says what is indexed, and the primary key too unless the slot is
unique.
-/
theorem coded_of_indexEntry_key
    {table : TableDef}
    (length : values.length = index.keyDirections.length)
    (length' : values'.length = index.keyDirections.length)
    (nonempty : primaryKey ≠ [])
    (nonempty' : primaryKey' ≠ [])
    (same : (indexEntry table index values primaryKey).key =
      (indexEntry table index values' primaryKey').key) :
    values.map Value.coded = values'.map Value.coded ∧
      (slotIsUnique index values = false → encode primaryKey = encode primaryKey') := by
  rw [indexEntry_eq, indexEntry_eq] at same
  have sameBytes := (header_append_inj same).2.2
  rw [entryBytes, entryBytes] at sameBytes
  obtain ⟨sameValues, sameKey⟩ :=
    coded_of_slotBytes length length' nonempty nonempty' sameBytes
  refine ⟨sameValues, fun notUnique => ?_⟩
  rw [← slotIsUnique_of_coded sameValues, notUnique] at sameKey
  exact sameKey

end Keys

theorem length_of_mem_keySets
    [Platform] {columns : List ColumnDef} {index : IndexDef}
    (wellFormed : index.WellFormed columns)
    {row : Row} {values : List Value}
    (member : values ∈ index.keySets row) :
    values.length = index.keyDirections.length := by
  rw [IndexDef.keySets] at member
  split at member
  · rw [mem_singleton.mp member, IndexDef.keyValues, IndexDef.keyDirections]
    cases index.expression with
    | none => simp only [Row.indexValues, Row.project, length_map]
    | some expression => rfl
  · next isText =>
      obtain ⟨_, noExpression, entry, column, isColumn, _⟩ :=
        wellFormed.text (by simpa using isText)
      rw [IndexDef.keyDirections, noExpression, isColumn]
      rw [isColumn] at member
      simp only [head?_cons] at member
      split at member
      · obtain ⟨term, _, rfl⟩ := mem_map.mp member
        rfl
      · cases member

theorem primaryKeyValues_ne_nil
    {table : TableDef}
    (wellFormed : table.WellFormed)
    (row : Row) :
    row.primaryKeyValues table ≠ [] := by
  intro isNil
  exact wellFormed.keyNonempty (map_eq_nil_iff.mp isNil)

/-! ## The layout of a catalog -/

section

variable [Platform]

/-- A valid row of a table of a catalog that can be kept in full. -/
structure CatalogRow (catalog : Catalog) where
  table : TableDef
  row : Row
  inCatalog : table ∈ catalog.tables
  valid : row.validate table = .ok ()
  fits : row.Fits

namespace CatalogRow

variable {catalog : Catalog}

/-- The key of a row. -/
def key (record : CatalogRow catalog) : Bytes :=
  Keys.rowKey record.table (record.row.primaryKeyValues record.table)

/-- The body of a row. -/
def body (record : CatalogRow catalog) : Bytes := encodeBody record.table record.row

/-- What the indexes of its table hold for a row. -/
def Indexed (record : CatalogRow catalog) (key value : Bytes) : Prop :=
  ∃ index ∈ record.table.indexes,
    ∃ entry ∈ admittedEntries record.table index record.row,
      entry.key = key ∧ entry.value = value

theorem not_indexed_key
    (record other : CatalogRow catalog) (value : Bytes) :
    ¬record.Indexed other.key value := by
  rintro ⟨index, _, entry, member, isKey, _⟩
  have ofIndex := ofIndex_of_mem_admittedEntries member
  rw [isKey] at ofIndex
  exact not_ofIndex_rowKey _ _ _ ofIndex

variable (wellFormed : catalog.WellFormed)

include wellFormed

variable {first second : CatalogRow catalog} {key value value' : Bytes}

theorem entries_of_key
    (indexed : first.Indexed key value) (indexed' : second.Indexed key value') :
    first.table = second.table ∧ ∃ index ∈ first.table.indexes,
        ∃ entry ∈ admittedEntries first.table index first.row,
          ∃ entry' ∈ admittedEntries first.table index second.row,
            entry.key = key ∧ entry.value = value ∧
              entry'.key = key ∧ entry'.value = value' := by
  obtain ⟨index, inIndexes, entry, member, isKey, isValue⟩ := indexed
  obtain ⟨index', inIndexes', entry', member', isKey', isValue'⟩ := indexed'
  have ofIndex := ofIndex_of_mem_admittedEntries member
  have ofIndex' := ofIndex_of_mem_admittedEntries member'
  rw [isKey] at ofIndex
  rw [isKey'] at ofIndex'
  obtain ⟨sameTable, rfl⟩ := wellFormed.index_unique first.inCatalog
    second.inCatalog inIndexes inIndexes' (ofIndex.unique ofIndex')
  rw [← sameTable] at member'
  exact ⟨sameTable, index, inIndexes, entry, member, entry', member', isKey,
    isValue, isKey', isValue'⟩

theorem coded_of_entries
    {table : TableDef}
    (inCatalog : table ∈ catalog.tables)
    {index : IndexDef}
    (inIndexes : index ∈ table.indexes)
    {row row' : Row} {entry entry' : IndexEntry}
    (member : entry ∈ admittedEntries table index row)
    (member' : entry' ∈ admittedEntries table index row')
    (sameKey : entry.key = entry'.key) :
    entry.value = entry'.value ↔ encode (row.primaryKeyValues table) =
        encode (row'.primaryKeyValues table) := by
  have tableWellFormed := wellFormed.tables table inCatalog
  have indexWellFormed := tableWellFormed.indexes index inIndexes
  have nonempty := primaryKeyValues_ne_nil tableWellFormed row
  have nonempty' := primaryKeyValues_ne_nil tableWellFormed row'
  obtain ⟨_, values, inSets, rfl⟩ := mem_admittedEntries.mp member
  obtain ⟨_, values', inSets', rfl⟩ := mem_admittedEntries.mp member'
  obtain ⟨sameValues, samePrimaryKey⟩ := coded_of_indexEntry_key
    (length_of_mem_keySets indexWellFormed inSets)
    (length_of_mem_keySets indexWellFormed inSets') nonempty nonempty' sameKey
  have sameUnique : slotIsUnique index values = slotIsUnique index values' :=
    slotIsUnique_of_coded sameValues
  rw [indexEntry_eq, indexEntry_eq, ← sameUnique]
  cases isUnique : slotIsUnique index values with
  | true => exact Iff.rfl
  | false => exact ⟨fun _ => samePrimaryKey isUnique, fun _ => rfl⟩

theorem table_of_key
    (sameKey : first.key = second.key) :
    first.table = second.table ∧ encode (first.row.primaryKeyValues first.table) =
        encode (second.row.primaryKeyValues second.table) := by
  obtain ⟨sameId, samePrimaryKey⟩ := rowKey_inj sameKey
  exact ⟨wellFormed.tableIds _ first.inCatalog _ second.inCatalog sameId,
    samePrimaryKey⟩

theorem key_of_indexed
    {key value : Bytes} (indexed : first.Indexed key value)
    (indexed' : second.Indexed key value) :
    first.key = second.key := by
  obtain ⟨sameTable, index, inIndexes, entry, member, entry', member', isKey,
    isValue, isKey', isValue'⟩ := entries_of_key wellFormed indexed indexed'
  have samePrimaryKey := (coded_of_entries wellFormed first.inCatalog
    inIndexes member member' (isKey.trans isKey'.symm)).mp
    (isValue.trans isValue'.symm)
  rw [CatalogRow.key, CatalogRow.key, ← sameTable, rowKey, rowKey, samePrimaryKey]

theorem value_of_indexed
    (sameKey : first.key = second.key)
    (indexed : first.Indexed key value) (indexed' : second.Indexed key value') :
    value = value' := by
  obtain ⟨sameTable, index, inIndexes, entry, member, entry', member', isKey,
    isValue, isKey', isValue'⟩ := entries_of_key wellFormed indexed indexed'
  have samePrimaryKey := (table_of_key wellFormed sameKey).2
  rw [← sameTable] at samePrimaryKey
  have sameValue := (coded_of_entries wellFormed first.inCatalog inIndexes
    member member' (isKey.trans isKey'.symm)).mpr samePrimaryKey
  rw [← isValue, sameValue, isValue']

/-- Rows that are kept under one key with one body are equal. -/
theorem same_of_body
    (sameKey : first.key = second.key)
    (sameBody : first.body = second.body) :
    first.row.Same second.row := by
  obtain ⟨sameTable, samePrimaryKey⟩ := table_of_key wellFormed sameKey
  obtain ⟨table, row, inCatalog, valid, fits⟩ := first
  obtain ⟨_, row', _, valid', fits'⟩ := second
  obtain rfl : table = _ := sameTable
  have tableWellFormed := wellFormed.tables table inCatalog
  have width := Row.width_of_validate valid
  have width' := Row.width_of_validate valid'
  have sameStored : encode (row.project table.storedColumns) =
      encode (row'.project table.storedColumns) :=
    append_cancel_left sameBody
  -- Columns that are encoded alike are equal, since both rows fit.
  have equal : ∀ ordinals : List Ordinal,
      encode (row.project ordinals) = encode (row'.project ordinals) →
      ∀ ordinal ∈ ordinals, (row.valueOrNull ordinal).canonical =
        (row'.valueOrNull ordinal).canonical := by
    intro ordinals sameColumns ordinal member
    have coded := coded_of_encode sameColumns
    rw [Row.project, Row.project, map_map, map_map] at coded
    have here : (row.valueOrNull ordinal).coded = (row'.valueOrNull ordinal).coded :=
      map_inj_left.mp coded ordinal member
    rw [← Value.coded_of_fits (fits.valueOrNull ordinal),
      ← Value.coded_of_fits (fits'.valueOrNull ordinal), here]
  apply Row.same_of_valueOrNull (width.trans width'.symm)
  intro ordinal inRow
  have inRange : ordinal < table.columns.length := by
    rw [← width]
    exact inRow
  by_cases inKey : ordinal ∈ table.primaryKey
  · exact equal table.primaryKey samePrimaryKey ordinal inKey
  · have inBody := tableWellFormed.mem_bodyColumns.mpr ⟨inRange, inKey⟩
    cases isLive : table.isLive ordinal with
    | true =>
        have isStored : ordinal ∈ table.storedColumns := by
          rw [← tableWellFormed.filter_isLive]
          exact mem_filter.mpr ⟨inBody, isLive⟩
        exact equal table.storedColumns sameStored ordinal isStored
    | false =>
        have found : table.column ordinal = some table.columns[ordinal] :=
          getElem?_eq_getElem inRange
        have isDropped : table.columns[ordinal].isDropped = true := by
          have isColumn : table.columns[ordinal]? = some table.columns[ordinal] := found
          rw [TableDef.isLive, isColumn] at isLive
          simpa using isLive
        rw [(Row.holds_of_validate tableWellFormed valid found).dropped isDropped,
          (Row.holds_of_validate tableWellFormed valid' found).dropped isDropped]

end CatalogRow

/-- Where the rows of a catalog and their entries are kept. -/
def Catalog.layout (catalog : Catalog) (wellFormed : catalog.WellFormed) :
    Layout (CatalogRow catalog) Bytes Bytes where
  home := CatalogRow.key
  body := CatalogRow.body
  derived := CatalogRow.Indexed
  apart := CatalogRow.not_indexed_key
  owner _ _ _ _ := CatalogRow.key_of_indexed wellFormed
  determined := by
    rintro first second key value sameKey sameBody
      ⟨index, inIndexes, entry, member, isKey, isValue⟩
    have same := CatalogRow.same_of_body wellFormed sameKey sameBody
    have sameTable := (CatalogRow.table_of_key wellFormed sameKey).1
    rw [same.admittedEntries, sameTable] at member
    rw [sameTable] at inIndexes
    exact ⟨index, inIndexes, entry, member, isKey, isValue⟩

/-! ## The keys of a catalog -/

/-- A key under which a catalog keeps rows or entries. -/
def Catalog.Owns (catalog : Catalog) (key : Bytes) : Prop :=
  ∃ table ∈ catalog.tables, Keys.tablePrefix table <+: key ∨
      ∃ index ∈ table.indexes, Keys.OfIndex index.id key

open Classical in
/-- What a store holds under the keys of a catalog. -/
noncomputable def Catalog.view (catalog : Catalog)
    (store : Bytes → Option Bytes) (key : Bytes) : Option Bytes :=
  if catalog.Owns key then store key else none

namespace Catalog

omit [Platform]

variable
  {catalog : Catalog}
  {table : TableDef}

variable {key : Bytes}

theorem view_of_owns
    (owns : catalog.Owns key) (store : Bytes → Option Bytes) :
    catalog.view store key = store key :=
  if_pos owns

theorem owns_of_tablePrefix
    (inCatalog : table ∈ catalog.tables)
    (begins : tablePrefix table <+: key) :
    catalog.Owns key :=
  ⟨table, inCatalog, .inl begins⟩

theorem owns_rowKey
    (inCatalog : table ∈ catalog.tables)
    (primaryKey : List Value) :
    catalog.Owns (rowKey table primaryKey) :=
  owns_of_tablePrefix inCatalog (prefix_append _ _)

theorem owns_of_ofIndex
    (inCatalog : table ∈ catalog.tables)
    {index : IndexDef}
    (declared : index ∈ table.indexes)
    (ofIndex : OfIndex index.id key) :
    catalog.Owns key :=
  ⟨table, inCatalog, .inr ⟨index, declared, ofIndex⟩⟩

end Catalog

end

end SlateOrm
