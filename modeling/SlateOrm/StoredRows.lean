import SlateOrm.CatalogStore
import SlateOrm.ExecutorRows
import SlateOrm.PlanAccess
import SlateOrm.RecordDelete
import SlateOrm.TupleReadBack

namespace SlateOrm

open List Keys

/-!
# Reads of a consistent store

In a store that holds exactly the rows of a catalog and their entries, every
key in a table's range is the key of one of its rows, and every key in an
index's range is an entry of one of its rows.  So whatever path a plan takes,
the rows it yields are rows that are stored.
-/

/-! ## Decoding keys and entries -/

variable {types : List ValueType} {row : Row} {table : TableDef}
  {index : IndexDef} {indexed primaryKey : List Value} {wanted : ColumnSet}
  {ordinal : Ordinal}

theorem decodePrefixWith_spec
    {values found : List Value} {directions : List Direction}
    {rest remainder : Bytes}
    (sameLength : types.length = values.length)
    (success : decodePrefixWith (encodeWith values directions ++ rest) types
      directions = .ok (found, remainder)) :
    found.map Value.canonical = values.map Value.coded ∧ remainder = rest := by
  obtain ⟨⟨decoded, reader⟩, read, success⟩ := bind_eq_ok.mp success
  cases success
  exact readAll_spec sameLength read

theorem length_primaryKeyTypes
    (table : TableDef) (row : Row) :
    table.primaryKeyTypes.length = (row.primaryKeyValues table).length := by
  rw [TableDef.primaryKeyTypes, TableDef.keyTypes, Row.primaryKeyValues,
    Row.project, length_map, length_map]

theorem Row.Fits.coded_project
    (fits : row.Fits) (ordinals : List Ordinal) :
    (row.project ordinals).map Value.coded =
      (row.project ordinals).map Value.canonical := by
  rw [Row.project, map_map, map_map]
  exact map_congr_left (fun ordinal _ => Value.coded_of_fits (fits.valueOrNull ordinal))

theorem canonical_of_decode
    (fits : row.Fits) {primaryKey : List Value}
    (success : decode (encode (row.primaryKeyValues table))
      table.primaryKeyTypes = .ok primaryKey) :
    primaryKey.map Value.canonical =
      (row.primaryKeyValues table).map Value.canonical := by
  rw [decode_spec (length_primaryKeyTypes table row) success]
  exact fits.coded_project table.primaryKey

theorem Keys.length_header
    (space : UInt8) (id : UInt32) :
    (header space id).length = HEADER_LEN := by
  rw [header, length_cons, length_toBeBytes]
  rfl

theorem canonical_of_decodeRowKey
    (fits : row.Fits) {primaryKey : List Value}
    (success : decodeRowKey table
      (rowKey table (row.primaryKeyValues table)) = .ok primaryKey) :
    primaryKey.map Value.canonical =
      (row.primaryKeyValues table).map Value.canonical := by
  have headerLength := length_header ROW_SPACE table.id
  rw [decodeRowKey, rowKey, tablePrefix] at success
  split at success
  · cases success
  · rw [← headerLength, drop_left, liftTuple_eq_ok] at success
    exact canonical_of_decode fits success

theorem length_indexKeyTypes
    (table : TableDef) (index : IndexDef) :
    (table.indexKeyTypes index).length = index.keyDirections.length := by
  rw [TableDef.indexKeyTypes, IndexDef.keyDirections]
  cases index.expression with
  | none => simp only [TableDef.keyTypes, length_map]
  | some expression => rfl

/-- An entry is decoded to what it was made of. -/
theorem decodeIndexEntry_spec
    (wellFormed : table.WellFormed)
    (fits : row.Fits) {values indexed primaryKey : List Value}
    (length : values.length = index.keyDirections.length)
    (success : decodeIndexEntry table index
      (indexEntry table index values (row.primaryKeyValues table)).key
      (indexEntry table index values (row.primaryKeyValues table)).value =
      .ok (indexed, primaryKey)) :
    indexed.map Value.canonical = values.map Value.coded ∧
      primaryKey.map Value.canonical =
        (row.primaryKeyValues table).map Value.canonical := by
  have headerLength := length_header INDEX_SPACE index.id
  have nonempty := primaryKeyValues_ne_nil wellFormed row
  rw [indexEntry_eq, decodeIndexEntry] at success
  dsimp only at success
  split at success
  · cases success
  · rw [← headerLength, drop_left] at success
    -- The tenant is read first, if there is one.
    obtain ⟨body, isBody, success⟩ := bind_eq_ok.mp success
    have afterTenant : body = encodeWith values index.keyDirections ++
          (if slotIsUnique index values then []
            else encode (row.primaryKeyValues table)) := by
      rw [afterTenant, entryBytes, slotBytes,
        flatMap_zip_eq_encodeWith length, append_assoc] at isBody
      have tenants := isSome_tenantValue table nonempty
      cases tenant : tenantValue table (row.primaryKeyValues table) with
      | none =>
          rw [tenant] at tenants isBody
          simp only [← tenants, Option.isSome_none, Bool.false_eq_true,
            if_false] at isBody
          cases isBody
          rfl
      | some value =>
          rw [tenant] at tenants isBody
          simp only [← tenants, Option.isSome_some, if_true] at isBody
          split at isBody
          · cases isBody
          · next tenantType _ =>
              obtain ⟨⟨found, rest⟩, read, isBody⟩ := bind_eq_ok.mp isBody
              cases isBody
              rw [liftTuple_eq_ok, decodePrefix] at read
              have single : encodeValue .asc value = encodeWith [value] [] := by
                rw [encodeWith, encodeWith, append_nil]
                rfl
              rw [single] at read
              exact (decodePrefixWith_spec rfl read).2
    obtain ⟨⟨found, rest⟩, read, success⟩ := bind_eq_ok.mp success
    rw [liftTuple_eq_ok, afterTenant] at read
    obtain ⟨sameValues, sameRest⟩ := decodePrefixWith_spec
      ((length_indexKeyTypes table index).trans length.symm) read
    have sameUnique : (index.unique && !found.any Value.isNull) =
        slotIsUnique index values := by
      have nulls : found.any Value.isNull = values.any Value.isNull := by
        have viaCanonical : found.any Value.isNull =
            (found.map Value.canonical).any Value.isNull := by
          simp only [any_map, Function.comp_def, Value.isNull_canonical]
        rw [viaCanonical, sameValues]
        simp only [any_map, Function.comp_def, Value.isNull_coded]
      rw [slotIsUnique, nulls]
    dsimp only at success
    rw [sameUnique] at success
    cases isUnique : slotIsUnique index values with
    | true =>
        simp only [isUnique, if_true] at success
        split at success
        · cases success
        · obtain ⟨decoded, decodes, success⟩ := bind_eq_ok.mp success
          cases success
          rw [liftTuple_eq_ok] at decodes
          exact ⟨sameValues, canonical_of_decode fits decodes⟩
    | false =>
        simp only [isUnique, Bool.false_eq_true, if_false, isEmpty_nil,
          Bool.not_true] at success
        simp only [isUnique, Bool.false_eq_true, if_false] at sameRest
        obtain ⟨decoded, decodes, success⟩ := bind_eq_ok.mp success
        cases success
        rw [sameRest, liftTuple_eq_ok] at decodes
        exact ⟨sameValues, canonical_of_decode fits decodes⟩

theorem Typed.length_eq
    {values : List Value} (typed : Typed values types) :
    values.length = types.length := by
  induction values generalizing types with
  | nil =>
      cases types with
      | nil => rfl
      | cons _ _ => cases typed
  | cons _ _ ih =>
      cases types with
      | nil => cases typed
      | cons _ _ => rw [length_cons, length_cons, ih typed.2.2]

theorem Typed.valueType
    {values : List Value} (typed : Typed values types) {position : Nat}
    {value : Value} {type : ValueType}
    (isValue : values[position]? = some value)
    (isType : types[position]? = some type) :
    value.valueType = some type ∨ value = .null := by
  induction values generalizing types position with
  | nil => cases isValue
  | cons _ _ ih =>
      cases types with
      | nil => cases typed
      | cons _ _ =>
          cases position with
          | zero =>
              cases isValue
              cases isType
              exact typed.1
          | succ _ => exact ih typed.2.2 isValue isType

theorem Value.eq_of_canonical_signed
    {first second : Value}
    (typed : first.valueType = some .i64 ∨ first = .null)
    (typed' : second.valueType = some .i64 ∨ second = .null)
    (equal : first.canonical = second.canonical) :
    first = second := by
  rw [← Value.canonical_of_signed typed, ← Value.canonical_of_signed typed']
  exact equal

theorem typed_of_decodeIndexEntry
    {key value : Bytes}
    (success : decodeIndexEntry table index key value = .ok (indexed, primaryKey)) :
    Typed indexed (table.indexKeyTypes index) := by
  rw [decodeIndexEntry] at success
  dsimp only at success
  split at success
  · cases success
  · obtain ⟨body, _, success⟩ := bind_eq_ok.mp success
    obtain ⟨⟨found, rest⟩, read, success⟩ := bind_eq_ok.mp success
    have typed : Typed found (table.indexKeyTypes index) := by
      obtain ⟨⟨decoded, reader⟩, readAll, same⟩ :=
        bind_eq_ok.mp (liftTuple_eq_ok.mp read)
      cases same
      exact (typed_of_readAll readAll).1
    dsimp only at success
    split at success
    · split at success
      · cases success
      · obtain ⟨_, _, success⟩ := bind_eq_ok.mp success
        cases success
        exact typed
    · split at success
      · cases success
      · obtain ⟨_, _, success⟩ := bind_eq_ok.mp success
        cases success
        exact typed

/-! ## Rows of entries -/

/-- A wanted column of an index is filled in from its entry. -/
theorem getElem?_fillIndexed
    {columns : List ColumnDef}
    (wellFormed : index.WellFormed columns)
    {indexed : List Value}
    (sameLength : indexed.length = index.columns.length)
    {position : Nat}
    (inIndex : position < index.columns.length)
    (isWanted : index.columns[position].ordinal ∈ wanted)
    (values : List Value)
    (inRange : index.columns[position].ordinal < values.length) :
    (fillIndexed index indexed wanted values)[index.columns[position].ordinal]? =
      some (indexed.get ⟨position, sameLength ▸ inIndex⟩) := by
  have inIndexed : position < indexed.length := sameLength ▸ inIndex
  have paired : (index.columns[position], indexed[position]) ∈
      (index.columns.zip indexed).filter (fun pair => pair.1.ordinal ∈ wanted) := by
    refine mem_filter.mpr ⟨?_, decide_eq_true isWanted⟩
    rw [mem_iff_getElem]
    refine ⟨position, ?_, getElem_zip ..⟩
    rw [length_zip, sameLength, Nat.min_self]
    exact inIndex
  have distinct : (((index.columns.zip indexed).filter
      (fun pair => pair.1.ordinal ∈ wanted)).map
        (fun pair => pair.1.ordinal)).Nodup := by
    have whole : ((index.columns.zip indexed).map
        (fun pair => pair.1.ordinal)).Nodup := by
      have firsts : (index.columns.zip indexed).map (fun pair => pair.1.ordinal) =
          ((index.columns.zip indexed).map Prod.fst).map
            IndexColumn.ordinal := by
        rw [map_map]
        rfl
      rw [firsts, map_fst_zip (Nat.le_of_eq sameLength.symm)]
      exact wellFormed.distinct
    exact whole.sublist (filter_sublist.map _)
  rw [fillIndexed_eq]
  exact getElem?_foldl_set_of_mem (fun pair => pair.1.ordinal) Prod.snd
    distinct paired inRange

/-- A column that an entry holds outside the primary key is one of its index. -/
theorem exists_position_of_holds
    (wellFormed : table.WellFormed)
    (inIndexes : index ∈ table.indexes)
    {indexed : List Value}
    (sameLength : indexed.length = index.keyDirections.length)
    (inRange : ordinal < table.columns.length)
    (held : holds table index ordinal = true)
    (outside : ordinal ∉ table.primaryKey)
    (isWanted : ordinal ∈ wanted)
    (primaryKey : List Value) :
    index.expression = none ∧
      ∃ position : Nat, (index.columns.map IndexColumn.ordinal)[position]? =
          some ordinal ∧
        indexed[position]? = some (Row.valueOrNull
          (rowFromIndexEntry table index indexed primaryKey wanted)
          ordinal) := by
  have indexWellFormed := wellFormed.indexes index inIndexes
  have inIndex : ordinal ∈ index.columns.map IndexColumn.ordinal := by
    rw [holds, Bool.or_eq_true] at held
    rcases held with inColumns | inPrimary
    · obtain ⟨column, member, isOrdinal⟩ := any_eq_true.mp inColumns
      exact mem_map.mpr ⟨column, member, eq_of_beq isOrdinal⟩
    · exact absurd (contains_iff_mem.mp inPrimary) outside
  obtain ⟨column, member, isOrdinal⟩ := mem_map.mp inIndex
  obtain ⟨position, inColumns, rfl⟩ := mem_iff_getElem.mp member
  have noExpression : index.expression = none := by
    rw [← Option.not_isSome_iff_eq_none, ← indexWellFormed.keyed]
    intro noColumns
    rw [noColumns] at inColumns
    cases inColumns
  rw [IndexDef.keyDirections, noExpression, length_map] at sameLength
  have inIndexed : position < indexed.length := sameLength ▸ inColumns
  refine ⟨noExpression, position, ?_, ?_⟩
  · rw [getElem?_map, getElem?_eq_getElem inColumns, Option.map_some, isOrdinal]
  · have filled := getElem?_fillIndexed indexWellFormed sameLength inColumns
      (isOrdinal ▸ isWanted)
      (replicate table.columns.length Value.null)
      (by rw [length_replicate, isOrdinal]; exact inRange)
    rw [isOrdinal] at filled
    rw [rowFromIndexEntry, valueOrNull_fillKey_of_notMem outside, filled,
      getElem?_eq_getElem inIndexed]
    rfl

theorem valueOrNull_entry_of_notMem
    (index : IndexDef) (indexed primaryKey : List Value)
    (inRange : ordinal < table.columns.length)
    (outside : ordinal ∉ table.primaryKey)
    (unwanted : ordinal ∉ wanted) :
    Row.valueOrNull (rowFromIndexEntry table index indexed primaryKey wanted)
      ordinal = .null := by
  have absent : ∀ pair ∈ (index.columns.zip indexed).filter
      (fun pair => pair.1.ordinal ∈ wanted), pair.1.ordinal ≠ ordinal := by
    rintro pair member rfl
    exact unwanted (of_decide_eq_true (mem_filter.mp member).2)
  rw [rowFromIndexEntry, valueOrNull_fillKey_of_notMem outside, fillIndexed_eq,
    getElem?_foldl_set_of_notMem (fun pair : IndexColumn × Value =>
    pair.1.ordinal) Prod.snd absent, getElem?_replicate, if_pos inRange]
  rfl

theorem canonical_valueOrNull_entry
    [Platform]
    (wellFormed : table.WellFormed)
    (inIndexes : index ∈ table.indexes)
    (fits : row.Fits)
    (sameLength : indexed.length = index.keyDirections.length)
    (sameValues : indexed.map Value.canonical = (index.keyValues row).map Value.coded)
    (sameKey : primaryKey.map Value.canonical =
      (row.primaryKeyValues table).map Value.canonical)
    (inRange : ordinal < table.columns.length)
    (held : holds table index ordinal = true)
    (isWanted : ordinal ∈ wanted ∨ ordinal ∈ table.primaryKey) :
    (Row.valueOrNull (rowFromIndexEntry table index indexed primaryKey wanted)
      ordinal).canonical = (row.valueOrNull ordinal).canonical := by
  by_cases inKey : ordinal ∈ table.primaryKey
  · exact canonical_valueOrNull_fillKey wellFormed sameKey
      (by rw [length_fillIndexed, length_replicate]) inKey
  · obtain ⟨noExpression, position, isOrdinal, isValue⟩ :=
      exists_position_of_holds wellFormed inIndexes sameLength inRange held
        inKey (isWanted.resolve_right inKey) primaryKey
    have isProjection : index.keyValues row =
        (index.columns.map IndexColumn.ordinal).map row.valueOrNull := by
      rw [IndexDef.keyValues, noExpression]
      rfl
    have here := congrArg (fun values => values[position]?) sameValues
    rw [isProjection] at here
    simp only [getElem?_map] at here isOrdinal
    rw [isValue, isOrdinal] at here
    have here := Option.some.inj here
    rw [here, Value.coded_of_fits (fits.valueOrNull ordinal)]

theorem signed_valueOrNull_entry
    [Platform]
    (wellFormed : table.WellFormed)
    (inIndexes : index ∈ table.indexes)
    (valid : row.validate table = .ok ())
    (sameLength : indexed.length = index.keyDirections.length)
    (typed : Typed indexed (table.indexKeyTypes index)) {column : ColumnDef}
    (isColumn : table.column ordinal = some column)
    (isSigned : column.type = .i64)
    (held : holds table index ordinal = true)
    (outside : ordinal ∉ table.primaryKey)
    (isWanted : ordinal ∈ wanted)
    (equal : (Row.valueOrNull (rowFromIndexEntry table index indexed primaryKey wanted)
        ordinal).canonical = (row.valueOrNull ordinal).canonical) :
    Row.valueOrNull (rowFromIndexEntry table index indexed primaryKey wanted)
      ordinal = row.valueOrNull ordinal := by
  have inRange : ordinal < table.columns.length :=
    (List.getElem?_eq_some_iff.mp isColumn).1
  obtain ⟨noExpression, position, isOrdinal, isValue⟩ := exists_position_of_holds
    wellFormed inIndexes sameLength inRange held outside isWanted primaryKey
  have isType : (table.indexKeyTypes index)[position]? = some .i64 := by
    rw [TableDef.indexKeyTypes, noExpression]
    simp only [TableDef.keyTypes, getElem?_map] at isOrdinal ⊢
    rw [isOrdinal, Option.map_some, isColumn, ← isSigned]
  refine Value.eq_of_canonical_signed (typed.valueType isValue isType) ?_ equal
  exact isSigned ▸ (Row.holds_of_validate wellFormed valid isColumn).typed

/-! ## Records of a store -/

section

variable [Platform]

variable
  {catalog : Catalog}
  {wellFormed : catalog.WellFormed}
  {kind : CatalogRow catalog → Prop}
  {store : Bytes → Option Bytes}

variable {table : TableDef} {primaryKey : List Value} {snapshot : Snapshot}
  {context : MatchContext} {access : Access} {rows : List Row}
  {records : RecordTransaction}

section

variable
  (comprises : (catalog.layout wellFormed).Comprises kind (catalog.view store))
  (inCatalog : table ∈ catalog.tables)

include comprises inCatalog

theorem exists_record_of_tablePrefix
    {key body : Bytes}
    (begins : tablePrefix table <+: key)
    (found : store key = some body) :
    ∃ record : CatalogRow catalog,
      kind record ∧ record.table = table ∧ record.key = key ∧ record.body = body := by
  rw [← Catalog.view_of_owns (Catalog.owns_of_tablePrefix inCatalog begins)
    store] at found
  obtain ⟨rest, isKey⟩ := begins
  obtain ⟨record, stored, image⟩ := comprises key body found
  rcases image with ⟨isHome, isBody⟩ | ⟨index, _, entry, member, isEntry, _⟩
  · have isHome' : key = record.key := isHome
    refine ⟨record, stored, ?_, isHome'.symm, isBody.symm⟩
    rw [← isKey] at isHome'
    exact wellFormed.tableIds _ record.inCatalog _ inCatalog
      (header_append_inj isHome').2.1.symm
  · obtain ⟨bytes, ofIndex⟩ := ofIndex_of_mem_admittedEntries member
    rw [isEntry, ← isKey] at ofIndex
    exact absurd (header_append_inj ofIndex).1 (by decide)

theorem exists_record_of_rowKey
    {body : Bytes}
    (found : store (rowKey table primaryKey) = some body) :
    ∃ record : CatalogRow catalog, kind record ∧ record.table = table ∧
        record.key = rowKey table primaryKey ∧ record.body = body :=
  exists_record_of_tablePrefix comprises inCatalog (prefix_append _ _) found

theorem exists_record_of_ofIndex
    {index : IndexDef}
    (inIndexes : index ∈ table.indexes)
    {key value : Bytes} (ofIndex : OfIndex index.id key)
    (found : store key = some value) :
    ∃ record : CatalogRow catalog, kind record ∧ record.table = table ∧
        ∃ entry ∈ admittedEntries table index record.row,
          entry.key = key ∧ entry.value = value := by
  rw [← Catalog.view_of_owns (Catalog.owns_of_ofIndex inCatalog inIndexes
    ofIndex) store] at found
  obtain ⟨record, stored, image⟩ := comprises key value found
  rcases image with
    ⟨isHome, _⟩ | ⟨index', inIndexes', entry, member, isEntry, isValue⟩
  · rw [isHome] at ofIndex
    exact absurd ofIndex (not_ofIndex_rowKey _ _ _)
  · have ofIndex' := ofIndex_of_mem_admittedEntries member
    rw [isEntry] at ofIndex'
    obtain ⟨sameTable, rfl⟩ := wellFormed.index_unique record.inCatalog
      inCatalog inIndexes' inIndexes (ofIndex'.unique ofIndex)
    subst sameTable
    exact ⟨record, stored, rfl, entry, member, isEntry, isValue⟩

end

theorem canonical_of_rowKey
    (wellFormed : catalog.WellFormed)
    {record : CatalogRow catalog}
    (sameKey : record.key = rowKey record.table primaryKey) :
    primaryKey.map Value.canonical =
      (record.row.primaryKeyValues record.table).map Value.canonical :=
  canonical_of_encode_primaryKey (wellFormed.tables _ record.inCatalog)
    record.valid (rowKey_inj sameKey).2.symm

theorem record_of_readRowUnchecked
    (comprises : (catalog.layout wellFormed).Comprises kind (catalog.view snapshot.get))
    (inCatalog : table ∈ catalog.tables)
    {row : Row}
    (read : readRowUnchecked snapshot table primaryKey = .ok (some row)) :
    ∃ record : CatalogRow catalog, kind record ∧ record.table = table ∧
        record.key = rowKey table primaryKey ∧
        row.ReadOf table record.row := by
  rw [readRowUnchecked] at read
  split at read
  · cases read
  · next body found =>
      obtain ⟨row', decodes, isRow⟩ := bind_eq_ok.mp read
      cases isRow
      obtain ⟨record, stored, rfl, isKey, rfl⟩ :=
        exists_record_of_rowKey comprises inCatalog found
      refine ⟨record, stored, rfl, isKey, ?_⟩
      exact readOf_of_decodeRowColumns (wellFormed.tables _ inCatalog)
        record.valid record.fits (canonical_of_rowKey wellFormed isKey)
        (fun _ _ => rfl) (liftSchema_eq_ok.mp decodes)

omit [Platform] in
theorem get_of_readRowUnchecked_none
    (read : readRowUnchecked snapshot table primaryKey = .ok none) :
    snapshot.get (rowKey table primaryKey) = none := by
  rw [readRowUnchecked] at read
  split at read
  · next absent => exact absent
  · obtain ⟨row, _, isRow⟩ := bind_eq_ok.mp read
    cases isRow

section

variable
  (comprises : (catalog.layout wellFormed).Comprises kind (catalog.view snapshot.get))

include comprises

/-- A key that is read leads to a row that is stored. -/
theorem record_of_readsKey
    (inCatalog : context.table ∈ catalog.tables)
    (readsFrom : context.ReadsFrom access) {key body : Bytes}
    (reads : ReadsKey context.table access key primaryKey)
    (found : snapshot.get key = some body) :
    ∃ record : CatalogRow catalog,
      kind record ∧ record.table = context.table ∧ record.body = body ∧
        primaryKey.map Value.canonical = (record.row.primaryKeyValues context.table).map
            Value.canonical := by
  have ofRowKey {primaryKey : List Value}
      (found : snapshot.get (rowKey context.table primaryKey) = some body) :
      ∃ record : CatalogRow catalog,
        kind record ∧ record.table = context.table ∧ record.body = body ∧
          primaryKey.map Value.canonical =
            (record.row.primaryKeyValues context.table).map
              Value.canonical := by
    obtain ⟨record, stored, isTable, isKey, isBody⟩ :=
      exists_record_of_rowKey comprises inCatalog found
    rw [← isTable] at isKey ⊢
    exact ⟨record, stored, rfl, isBody, canonical_of_rowKey wellFormed isKey⟩
  cases reads with
  | point
  | points _ => exact ofRowKey found
  | scan inRange isKey =>
      obtain ⟨record, stored, isTable, rfl, isBody⟩ :=
        exists_record_of_tablePrefix comprises inCatalog (readsFrom key inRange) found
      rw [← isTable] at isKey ⊢
      exact ⟨record, stored, rfl, isBody, canonical_of_decodeRowKey record.fits isKey⟩

/-- An entry that is read is one of a row that is stored. -/
theorem record_of_readsEntry
    (inCatalog : context.table ∈ catalog.tables)
    (readsFrom : context.ReadsFrom access) {covering : Bool} {index : IndexDef}
    {indexed primaryKey : List Value}
    (reads : ReadsEntry snapshot context.table access covering index indexed
      primaryKey) :
    (covering = true → covers context index = true) ∧
    Typed indexed (context.table.indexKeyTypes index) ∧
    ∃ record : CatalogRow catalog, kind record ∧ record.table = context.table ∧
        (∃ values ∈ index.keySets record.row,
          indexed.map Value.canonical = values.map Value.coded) ∧
        primaryKey.map Value.canonical = (record.row.primaryKeyValues context.table).map
            Value.canonical := by
  obtain ⟨⟨ranges, key, value, range, isAccess, inRanges, inRange, found,
    decodes⟩, inIndexes⟩ := reads
  have readsEntries : context.ReadsEntries index.id ranges covering := by
    cases access with
    | indexScan id single covering'
    | indexScans id several covering' =>
        cases isAccess
        exact readsFrom
    | _ => cases isAccess
  have tableWellFormed := wellFormed.tables _ inCatalog
  refine ⟨?_, typed_of_decodeIndexEntry decodes, ?_⟩
  · intro isCovering
    obtain ⟨other, inIndexes', sameId, covered, -⟩ := readsEntries.index
    obtain ⟨_, rfl⟩ := wellFormed.index_unique inCatalog inCatalog
      inIndexes' inIndexes sameId
    exact covered isCovering
  · obtain ⟨record, stored, isTable, entry, member, rfl, rfl⟩ :=
      exists_record_of_ofIndex comprises inCatalog inIndexes
        (readsEntries.within range inRanges key inRange) found
    obtain ⟨_, values, inSets, rfl⟩ := mem_admittedEntries.mp member
    obtain ⟨sameValues, sameKey⟩ := decodeIndexEntry_spec tableWellFormed record.fits
      (length_of_mem_keySets (tableWellFormed.indexes index inIndexes) inSets) decodes
    exact ⟨record, stored, isTable, ⟨values, inSets, sameValues⟩, sameKey⟩

/-- A row of a query for whole rows is stored. -/
theorem record_of_origin
    (inCatalog : context.table ∈ catalog.tables)
    (needsAll : context.needed = .all)
    (readsFrom : context.ReadsFrom access) {shape : RowShape}
    (isTable : shape.table = context.table)
    (noCompute : shape.compute = [])
    (decodesAll : Finset.range context.table.columns.length ⊆ shape.decodeColumns)
    {row : Row} (origin : Origin snapshot shape access row) :
    ∃ record : CatalogRow catalog, kind record ∧ record.table = context.table ∧
        row.ReadOf context.table record.row := by
  have tableWellFormed := wellFormed.tables _ inCatalog
  have plain (row : Row) (held : Option (Nat × Value)) :
      extendRow row shape.compute shape.transient held = row := by
    rw [extendRow, noCompute]
    rfl
  have everything {asked : Option ColumnSet} (asks : shape.Asks asked) :
      ∀ ordinal, ordinal < context.table.columns.length →
        isWanted asked ordinal = true := by
    intro ordinal inRange
    have inSet : ordinal ∈ shape.decodeColumns :=
      decodesAll (Finset.mem_range.mpr inRange)
    rcases asks with rfl | rfl
    · rw [wanted]
      split
      · rfl
      · exact decide_eq_true inSet
    · exact decide_eq_true inSet
  cases origin with
  | stored reads found asks decodes =>
      rw [isTable] at reads decodes
      obtain ⟨record, stored, isRecord, rfl, sameKey⟩ :=
        record_of_readsKey comprises inCatalog readsFrom reads found
      refine ⟨record, stored, isRecord, ?_⟩
      rw [plain]
      rw [← isRecord] at sameKey decodes tableWellFormed ⊢
      exact readOf_of_decodeRowColumns tableWellFormed record.valid
        record.fits sameKey (isRecord ▸ everything asks) decodes
  | fetched reads found asks decodes =>
      rw [isTable] at reads found decodes
      obtain ⟨record, stored, isRecord, isKey, rfl⟩ :=
        exists_record_of_rowKey comprises inCatalog found
      refine ⟨record, stored, isRecord, ?_⟩
      rw [plain]
      rw [← isRecord] at isKey decodes tableWellFormed ⊢
      exact readOf_of_decodeRowColumns tableWellFormed record.valid record.fits
        (canonical_of_rowKey wellFormed isKey) (isRecord ▸ everything asks) decodes
  | @entry index indexed primaryKey reads =>
      rw [isTable] at reads
      have inIndexes := reads.index
      obtain ⟨covered, typed, record, stored, isRecord, ⟨values, inSets, sameValues⟩,
        sameKey⟩ := record_of_readsEntry comprises inCatalog readsFrom reads
      refine ⟨record, stored, isRecord, ?_⟩
      have isCovered := covered rfl
      rw [covers, needsAll] at isCovered
      split at isCovered
      · cases isCovered
      · next notText =>
          have heldAll : ∀ ordinal, ordinal < context.table.columns.length →
              holds context.table index ordinal = true := by
            intro ordinal inRange
            exact all_eq_true.mp isCovered ordinal (mem_range.mpr inRange)
          have isKey : values = index.keyValues record.row := by
            rw [IndexDef.keySets] at inSets
            simp only [notText, Bool.not_false, if_true] at inSets
            exact mem_singleton.mp inSets
          rw [isKey] at sameValues
          rw [plain, isTable]
          have width : record.row.values.length =
              context.table.columns.length := by
            rw [← isRecord]
            exact Row.width_of_validate record.valid
          have sameLength : indexed.length = index.keyDirections.length :=
            typed.length_eq.trans (length_indexKeyTypes context.table index)
          have same : ∀ ordinal, ordinal < context.table.columns.length →
              (Row.valueOrNull (rowFromIndexEntry context.table index indexed
                primaryKey shape.decodeColumns) ordinal).canonical =
                (record.row.valueOrNull ordinal).canonical :=
            fun ordinal inRow => canonical_valueOrNull_entry tableWellFormed
              inIndexes record.fits sameLength sameValues sameKey inRow
              (heldAll ordinal inRow)
              (Or.inl (decodesAll (Finset.mem_range.mpr inRow)))
          refine ⟨?_, ?_⟩
          · apply Row.same_of_valueOrNull
            · rw [length_rowFromIndexEntry, width]
            · intro ordinal inRow
              rw [length_rowFromIndexEntry] at inRow
              exact same ordinal inRow
          · intro ordinal column isColumn isSigned outside
            have inRow : ordinal < context.table.columns.length :=
              (List.getElem?_eq_some_iff.mp isColumn).1
            exact signed_valueOrNull_entry tableWellFormed inIndexes
              (isRecord ▸ record.valid) sameLength typed isColumn isSigned
              (heldAll ordinal inRow) outside
              (decodesAll (Finset.mem_range.mpr inRow)) (same ordinal inRow)

theorem record_of_openCursor
    (inCatalog : table ∈ catalog.tables)
    {limits : ExecutionLimits} {filter : Expr} {statistics : TableStats}
    {query : Query}
    (noCompute : query.compute = [])
    {cursor : Cursor Row}
    (opened : openCursor limits snapshot table
      (planHinted table filter query.order .all statistics query.sort
        query.hint query.compute) query = .ok cursor)
    (collected : cursor.collect = .ok rows) :
    ∀ row ∈ rows, ∃ record : CatalogRow catalog,
      kind record ∧ record.table = table ∧ row.ReadOf table record.row := by
  have all := (all_openCursor opened).of_mem_collect collected
  intro row member
  obtain ⟨origin, hasOrigin, isRow⟩ := all row member
  rw [concealed_planHinted, conceal_nil] at isRow
  rw [isRow]
  rw [noCompute] at hasOrigin
  refine record_of_origin comprises ?_ rfl
    (readsFrom_planHinted table _ _ .all _ _ _ _) rfl rfl ?_ hasOrigin
  · exact inCatalog
  · rw [rowShape, outputColumns_planHinted]
    exact Finset.subset_union_left

theorem record_of_referencingRows
    {child : TableDef}
    (inCatalog : child ∈ catalog.tables)
    {foreignKey : ForeignKeyDef} {parentKey : List Value} {retired : Deleted}
    (found : records.referencingRows .superuser child foreignKey parentKey
      retired snapshot = .ok rows) :
    ∀ row ∈ rows, ∃ record : CatalogRow catalog,
      kind record ∧ record.table = child ∧ row.ReadOf child record.row := by
  obtain ⟨cursor, executed, collected⟩ := bind_eq_ok.mp found
  obtain ⟨plan, planned, opened⟩ := opened_of_execute executed
  obtain ⟨rowFilter, _, rfl⟩ := planned_of_plan rfl planned
  exact record_of_openCursor comprises inCatalog rfl opened collected

end

omit [Platform] in
theorem RecordTransaction.collect_of_collectMatched
    {atMost : Option Nat} {cursor : Cursor Row}
    (matched : collectMatched atMost cursor = .ok rows) :
    cursor.collect = .ok rows := by
  cases atMost with
  | none => exact matched
  | some limit => exact Cursor.collect_of_collectAtMost matched

theorem record_of_matchingRows
    (comprises : (catalog.layout wellFormed).Comprises kind (catalog.view snapshot.get))
    {context : SecurityContext}
    (inCatalog : table ∈ catalog.tables)
    {predicate : Expr} {atMost : Option Nat}
    (found : records.matchingRows context table predicate atMost snapshot = .ok rows) :
    ∀ row ∈ rows, ∃ record : CatalogRow catalog,
      kind record ∧ record.table = table ∧ row.ReadOf table record.row := by
  obtain ⟨cursor, executed, matched⟩ := bind_eq_ok.mp found
  obtain ⟨plan, planned, opened⟩ := opened_of_executeForWrite executed
  obtain ⟨rowFilter, _, rfl⟩ := planned_of_planSecured planned
  exact record_of_openCursor comprises inCatalog rfl opened
    (RecordTransaction.collect_of_collectMatched matched)

end

end SlateOrm
