import SlateOrm.SortedWalks

namespace SlateOrm

open List Option MatchContext

/-!
# Rows of covering entries

A plan that an index covers makes its rows of entries alone.  Such a row is the
one that is made of the stored row, unless the index holds a computed column
that it computes otherwise than the query does: over the stored row, where the
query has the columns that it has computed before.
-/

section

variable [Platform]

/-! ## Rows of entries -/

/-- An entry is read back as what its index holds of a row. -/
def IndexDef.ReadsBack (index : IndexDef) (table : TableDef)
    (found : KeyValue) (row : Row) : Prop :=
  ∃ indexed primaryKey, Keys.decodeIndexEntry table index found.key found.value =
        .ok (indexed, primaryKey) ∧
      indexed.map Value.canonical = (index.keyValues row).map Value.canonical ∧
      primaryKey.map Value.canonical = (row.primaryKeyValues table).map Value.canonical

/--
The row that is made of an entry equals the one that is made of the stored row
that the entry leads to.
-/
def RowShape.Exact (shape : RowShape) (snapshot : Snapshot)
    (index : IndexDef) (found : KeyValue) : Prop :=
  ∃ indexed primaryKey body decoded,
    Keys.decodeIndexEntry shape.table index found.key found.value =
        .ok (indexed, primaryKey) ∧
      readRowBody snapshot shape.table primaryKey = some body ∧
      decodeRowColumns shape.table primaryKey body (some shape.decodeColumns) =
        .ok decoded ∧
      (shape.ofEntry index indexed primaryKey).Same
        (extendRow decoded shape.compute shape.transient none)

/-! ## Entries that are read back -/

section

variable
  {catalog : Catalog}
  (wellFormed : catalog.WellFormed)
  {record : CatalogRow catalog}
  {index : IndexDef}
  (plain : index.text = false)
  (inIndexes : index ∈ record.table.indexes)
  {entry : Keys.IndexEntry}
  (member : entry ∈ admittedEntries record.table index record.row)

include wellFormed plain inIndexes member

theorem readsBack_iff_recodes :
    index.ReadsBack record.table ⟨entry.key, entry.value⟩ record.row ↔
      ∀ value ∈ index.keyValues record.row, value.Recodes := by
  obtain ⟨-, values, isSet, rfl⟩ := mem_admittedEntries.mp member
  obtain rfl := (mem_keySets_of_plain plain).mp isSet
  let keyed := record.keyedEntry wellFormed inIndexes isSet
  constructor
  · rintro ⟨indexed, primaryKey, decoded, sameValues, sameKey⟩
    have undone : keyed.Undone := ⟨indexed, primaryKey, decoded,
      (Value.beq_list_iff_canonical _ _).mpr sameValues,
      (Value.beq_list_iff_canonical _ _).mpr sameKey⟩
    exact KeyedEntry.recodes_of_undone undone
  · intro recodes
    obtain ⟨indexed, primaryKey, decoded, sameValues, sameKey⟩ :=
      keyed.undone_of_recodes wellFormed recodes
    exact ⟨indexed, primaryKey, decoded, (Value.beq_list_iff_canonical _ _).mp
      sameValues, (Value.beq_list_iff_canonical _ _).mp sameKey⟩

end

namespace RowShape

variable
  {shape : RowShape}
  (sound : shape.Sound)
  {row : Row}
  (width : row.values.length = shape.table.columns.length)

include sound width

variable {scalar : Scalar} {place : Nat}

omit sound width in
theorem get_ofEntry
    {index : IndexDef} {indexed primaryKey : List Value}
    (found : shape.compute[place]? = some scalar)
    (isKept : shape.table.columns.length + place ∉ shape.transient)
    {value : Value}
    (isHeld : shape.heldValue indexed = some (place, value)) :
    (shape.ofEntry index indexed primaryKey).get
      (shape.table.columns.length + place) = some value := by
  rw [ofEntry, get_extendRow_of_kept _ _ isKept, ← length_rowFromIndexEntry
    shape.table index indexed primaryKey shape.decodeColumns,
    getElem?_appendComputed_place _ _ _ found, isHeld, computedAt.eq_def]
  dsimp only
  rw [if_pos (Nat.zero_add place).symm]

omit sound width in
theorem get_output
    (found : shape.compute[place]? = some scalar)
    (isKept : shape.table.columns.length + place ∉ shape.transient) :
    (shape.output row).get (shape.table.columns.length + place) =
      some (scalar.evaluate (fun ordinal =>
        (appendComputed none 0 (shape.compute.take place) (row.restrict shape.table
            shape.decodeColumns).values)[ordinal]?)) := by
  rw [output, get_extendRow_of_kept _ _ isKept, ← length_restrict row
    shape.table shape.decodeColumns, getElem?_appendComputed_place _ _ _ found]
  rfl

end RowShape

/-! ## Exact entries -/

namespace RowShape

variable
  {catalog : Catalog}
  (wellFormed : catalog.WellFormed)
  {record : CatalogRow catalog}
  {shape : RowShape}
  {snapshot : Snapshot}
  (stored : record.StoredIn snapshot shape.table)
  (current : shape.table.Current)

include wellFormed stored current

theorem exists_fetched
    {primaryKey : List Value}
    (sameKey : primaryKey.map Value.canonical =
      (record.row.primaryKeyValues shape.table).map Value.canonical) :
    ∃ body decoded, readRowBody snapshot shape.table primaryKey = some body ∧
        decodeRowColumns shape.table primaryKey body
          (some shape.decodeColumns) = .ok decoded ∧
        (extendRow decoded shape.compute shape.transient none).Same
          (shape.output record.row) := by
  obtain ⟨table, row, inCatalog, valid, fits⟩ := record
  obtain rfl : table = shape.table := stored.ofTable
  have asks : ∀ ordinal, ordinal < shape.table.columns.length →
      (isWanted (some shape.decodeColumns) ordinal = true ↔
        ordinal ∈ shape.decodeColumns) := by
    intro ordinal _
    simp [isWanted]
  obtain ⟨decoded, isDecoded, same⟩ := decodeRowColumns_eq_restrict
    (wellFormed.tables _ inCatalog) current valid fits sameKey shape.decodeColumns asks
  refine ⟨_, decoded, ?_, isDecoded, same.extendRow _ _⟩
  rw [readRowBody, rowKey_eq_of_canonical sameKey]
  exact stored.held

variable
  (sound : shape.Sound)
  {index : IndexDef}
  (covered : shape.CoveredBy index)
  (inIndexes : index ∈ shape.table.indexes)
  {entry : Keys.IndexEntry}
  (member : entry ∈ admittedEntries shape.table index record.row)

include sound covered inIndexes member

/-- What an entry holds is what the query computes when its row is exact. -/
theorem holdsComputed_of_exact
    (isReadBack : index.ReadsBack shape.table ⟨entry.key, entry.value⟩ record.row)
    (exact : shape.Exact snapshot index ⟨entry.key, entry.value⟩) :
    index.HoldsComputed shape.compute record.row := by
  intro position isPosition scalar found value isHeld
  have recodes : ∀ value ∈ index.keyValues record.row, value.Recodes := by
    have isTable := stored.ofTable
    rw [← isTable] at isReadBack inIndexes member
    exact (readsBack_iff_recodes wellFormed covered.plain inIndexes
      member).mp isReadBack
  refine ⟨recodes value isHeld, ?_⟩
  obtain ⟨indexed, primaryKey, decodes, sameValues, sameKey⟩ := isReadBack
  obtain ⟨_, _, body, decoded, decodes', isBody, isDecoded, same⟩ := exact
  cases decodes.symm.trans decodes'
  obtain ⟨_, _, isBody', isDecoded', isOutput⟩ :=
    exists_fetched wellFormed stored current sameKey
  cases isBody.symm.trans isBody'
  cases isDecoded.symm.trans isDecoded'
  obtain ⟨expression, -, isScalar, -, -⟩ := exists_of_expressionPosition isPosition
  rw [keyValues_of_indexExpression isScalar, mem_singleton] at isHeld
  subst isHeld
  rw [keyValues_of_indexExpression isScalar, map_singleton] at sameValues
  obtain ⟨held, isIndexed, equal⟩ := map_eq_singleton_iff.mp sameValues
  have isHeld : shape.heldValue indexed = some (position, held) := by
    rw [heldValue, covered.fromEntry, isPosition, isIndexed]
    rfl
  have isKept : shape.table.columns.length + position ∉ shape.transient :=
    fun isTransient => Nat.not_lt.mpr (Nat.le_add_right _ _)
      (sound.transient _ isTransient)
  have sameColumn := (same.trans isOutput).sameColumns
    (shape.table.columns.length + position)
  rw [get_ofEntry found isKept isHeld, get_output found isKept] at sameColumn
  have width : record.row.values.length = shape.table.columns.length :=
    stored.ofTable ▸ Row.width_of_validate record.valid
  rw [← equal, ← canonical_evaluate_restrict sound width found]
  exact some.inj sameColumn

/-- The row of an entry is exact when it holds what the query computes. -/
theorem exact_of_holdsComputed
    (isRead : index.expression = none ∨
      (expressionPosition index shape.compute).isSome = true)
    (holdsComputed : index.HoldsComputed shape.compute record.row) :
    index.ReadsBack shape.table ⟨entry.key, entry.value⟩ record.row ∧
      shape.Exact snapshot index ⟨entry.key, entry.value⟩ := by
  obtain ⟨table, row, inCatalog, valid, fits⟩ := record
  obtain rfl : table = shape.table := stored.ofTable
  have tableWellFormed := wellFormed.tables _ inCatalog
  have recodes := recodes_of_holdsComputed tableWellFormed valid inIndexes
    isRead holdsComputed
  have isReadBack := (@readsBack_iff_recodes _ _ wellFormed
    ⟨shape.table, row, inCatalog, valid, fits⟩ _ covered.plain inIndexes _
      member).mpr recodes
  refine ⟨isReadBack, ?_⟩
  obtain ⟨indexed, primaryKey, decodes, sameValues, sameKey⟩ := isReadBack
  obtain ⟨body, decoded, isBody, isDecoded, isOutput⟩ :=
    exists_fetched wellFormed stored current sameKey
  refine ⟨indexed, primaryKey, body, decoded, decodes, isBody, isDecoded, ?_⟩
  exact (same_ofEntry sound tableWellFormed valid fits covered inIndexes
    recodes holdsComputed sameValues sameKey).trans isOutput.symm

end RowShape

/-! ## Covering plans -/

/--
Every entry that a covering plan reads is one of a stored row, and its row is
the one that is made of the stored row exactly when the computed column that
the index holds, if any, is what the query computes.
-/
theorem exact_iff_holdsComputed
    {catalog : Catalog}
    {wellFormed : catalog.WellFormed}
    {snapshot : Snapshot} {table : TableDef} {tableRows : List Row}
    (readable : ReadableTable wellFormed snapshot table tableRows)
    {filter : Expr} {query : Query} {stats : TableStats} {hidden : List Ordinal}
    {plan : Plan}
    (isPlan : plan = query.planned table filter stats hidden)
    {id : IndexId} {ranges : List KeyRange}
    (covering : plan.access.entryRanges = some (id, ranges, true))
    {range : KeyRange}
    (inRanges : range ∈ ranges)
    {found : KeyValue}
    (contained : range.contains found.key = true)
    (held : snapshot.get found.key = some found.value) :
    ∃ index ∈ table.indexes, index.id = id ∧
      ∃ record : CatalogRow catalog, EntryOf snapshot table index found record ∧
        (index.ReadsBack table found record.row ∧
            (rowShape table plan query.compute).Exact snapshot index found ↔
          index.HoldsComputed query.compute record.row) := by
  have outputs : plan.outputColumns =
      planOutputColumns table filter query.projection query.sort :=
    isPlan ▸ outputColumns_planHinted ..
  have sound : (rowShape table plan query.compute).Sound := by
    rw [isPlan]
    exact sound_rowShape ..
  have readsFrom : (matchContext table filter query.projection stats
      query.sort query.compute).ReadsFrom plan.access := by
    rw [isPlan]
    exact readsFrom_planHinted ..
  have readsEntries := readsFrom.readsEntries covering
  obtain ⟨index, inIndexes, rfl, isCovering, isRead⟩ := readsEntries.index
  have covered : (rowShape table plan query.compute).CoveredBy index :=
    coveredBy_rowShape outputs covering
      (wellFormed.index_eq_some readable.inCatalog inIndexes)
      (covers_of_covers (isCovering rfl))
  obtain ⟨record, stored, isTable, entry, inEntries, isKey, isValue⟩ :=
    exists_record_of_ofIndex readable.consistent.comprises readable.inCatalog
      inIndexes (readsEntries.within range inRanges found.key contained) held
  have storedIn := storedIn_of_stored stored isTable
  obtain rfl : found = ⟨entry.key, entry.value⟩ := by
    rw [isKey, isValue]
  refine ⟨index, inIndexes, rfl, record, ⟨storedIn, entry, inEntries, rfl⟩, ?_⟩
  have current := readable.current storedIn
  constructor
  · rintro ⟨isReadBack, exact⟩
    exact RowShape.holdsComputed_of_exact wellFormed storedIn current sound
      covered inIndexes inEntries isReadBack exact
  · exact RowShape.exact_of_holdsComputed wellFormed storedIn current sound
      covered inIndexes inEntries
      ((computed_of_read isRead).resolve_left (by simp [covered.plain]))

end

section

local instance rankPlatform : Platform := asciiPlatform

/-- The computed columns of the scores alone, read by the index. -/
def scoreRanks (compute : List Scalar) : Query where
  projection := .columns []
  compute := compute
  hint := some (.index 1)

/-- How rows of scores are made by their ranks. -/
def rankShape (rank : Scalar) (compute : List Scalar) : RowShape :=
  rowShape (scores rank) (scorePlan rank (scoreRanks compute)) compute

/--
How the row of the first entry that a plan of scores reads compares to the one
that is made of the stored row.
-/
def rankOrdering (rank : Scalar) (compute : List Scalar) :
    Option (Bool × Ordering) := do
  let shape := rankShape rank compute
  let state ← scoreStore rank
  let _ ← (readTable state.transaction (scores rank)).toOption
  let access ← (scorePlan rank (scoreRanks compute)).access.entryRanges
  let range ← access.2.1.head?
  let found ← (state.transaction.scan range .ascending).head?
  let entry ← (Keys.decodeIndexEntry (scores rank) (scoresRank rank) found.key
      found.value).toOption
  let body ← readRowBody state.transaction (scores rank) entry.2
  let decoded ← (decodeRowColumns (scores rank) entry.2 body
      (some shape.decodeColumns)).toOption
  return (access.2.2, Value.cmpList
    (shape.ofEntry (scoresRank rank) entry.1 entry.2).values
    (extendRow decoded shape.compute shape.transient none).values)

/-- An entry that a covering plan of scores reads, and the row it leads to. -/
theorem of_rankOrdering
    {rank : Scalar} {compute : List Scalar} {ordering : Ordering}
    (isOrdering : rankOrdering rank compute = some (true, ordering)) :
    ∃ (state : RecordState) (tableRows : List Row) (id : IndexId)
        (ranges : List KeyRange) (range : KeyRange) (found : KeyValue)
        (indexed primaryKey : List Value) (body : Bytes) (decoded : Row),
      scoreStore rank = some state ∧
        readTable state.transaction (scores rank) = .ok tableRows ∧
        (scorePlan rank (scoreRanks compute)).access.entryRanges =
          some (id, ranges, true) ∧
        range ∈ ranges ∧ range.contains found.key = true ∧
        state.transaction.get found.key = some found.value ∧
        Keys.decodeIndexEntry (scores rank) (scoresRank rank) found.key
          found.value = .ok (indexed, primaryKey) ∧
        readRowBody state.transaction (scores rank) primaryKey = some body ∧
        decodeRowColumns (scores rank) primaryKey body
          (some (rankShape rank compute).decodeColumns) = .ok decoded ∧
        Value.cmpList ((rankShape rank compute).ofEntry (scoresRank rank) indexed
            primaryKey).values
          (extendRow decoded compute (rankShape rank compute).transient
            none).values = ordering := by
  rw [rankOrdering] at isOrdering
  obtain ⟨state, isStore, rest⟩ := bind_eq_some_iff.mp isOrdering
  obtain ⟨tableRows, isRead, rest⟩ := bind_eq_some_iff.mp rest
  obtain ⟨⟨id, ranges, covering⟩, isAccess, rest⟩ := bind_eq_some_iff.mp rest
  obtain ⟨range, isRange, rest⟩ := bind_eq_some_iff.mp rest
  obtain ⟨found, isFound, rest⟩ := bind_eq_some_iff.mp rest
  obtain ⟨⟨indexed, primaryKey⟩, isEntry, rest⟩ := bind_eq_some_iff.mp rest
  obtain ⟨body, isBody, rest⟩ := bind_eq_some_iff.mp rest
  obtain ⟨decoded, isDecoded, rest⟩ := bind_eq_some_iff.mp rest
  cases rest
  obtain ⟨contained, held⟩ := mem_scan.mp (mem_of_head? isFound)
  exact ⟨state, tableRows, id, ranges, range, found, indexed, primaryKey, body, decoded,
    isStore, eq_ok_of_toOption isRead, isAccess, mem_of_head? isRange, contained, held,
    eq_ok_of_toOption isEntry, isBody, eq_ok_of_toOption isDecoded, rfl⟩

/-- The rows of the scores by their points are exact. -/
theorem exact_scoreRanks :
    ∃ state, scoreStore pointsRank = some state ∧
      ∃ found : KeyValue, state.transaction.get found.key = some found.value ∧
        (rankShape pointsRank [pointsRank]).Exact state.transaction
          (scoresRank pointsRank) found := by
  obtain ⟨state, tableRows, id, ranges, range, found, -, -, -, -, isStore,
      isRead, isAccess, inRanges, contained, held, -⟩ :=
    @of_rankOrdering pointsRank [pointsRank] .eq (by decide)
  have readable : ReadableTable (Catalog.wellFormed_of_fromTables
      (built_scores pointsRank) rfl) state.transaction (scores pointsRank)
        tableRows :=
    ⟨mem_singleton.mpr rfl, consistent_scores isStore, isRead⟩
  obtain ⟨index, inIndexes, -, record, isEntry, exact⟩ :=
    exact_iff_holdsComputed readable rfl isAccess inRanges contained held
  obtain rfl := mem_singleton.mp inIndexes
  refine ⟨state, isStore, found, held, (exact.mpr ?_).2⟩
  have formed := (Catalog.wellFormed_of_fromTables
    (built_scores pointsRank) rfl).tables _ readable.inCatalog
  have valid := record.valid
  rw [isEntry.storedIn.ofTable] at valid
  have regular := regularFor_pointsRank [pointsRank]
  have keyable := (Row.keyable_of_validate formed valid).indexed _ inIndexes
    (regular.ordered rfl)
  refine regular.holdsComputed (Row.width_of_validate valid) (fun value isHeld => ?_)
  exact ⟨Value.flat_of_isKeyable (keyable value isHeld),
    Value.fits_of_isKeyable (keyable value isHeld)⟩

/-- The rank of the second computed column is not the one that is held. -/
theorem not_exact_scoreRanks :
    ¬∀ (_ : Platform) (tables : List TableDef) (built : ∀ table ∈ tables,
        ∃ builder : TableBuilder, builder.build = .ok table)
      (catalog : Catalog) (made : Catalog.fromTables tables = .ok catalog)
      (snapshot : Snapshot) (table : TableDef) (tableRows : List Row),
      ReadableTable (Catalog.wellFormed_of_fromTables built made) snapshot
        table tableRows →
      ∀ (filter : Expr) (query : Query) (stats : TableStats) (plan : Plan)
        (hidden : List Ordinal),
        plan = query.planned table filter stats hidden →
        ∀ id ranges, plan.access.entryRanges = some (id, ranges, true) →
        ∀ index ∈ table.indexes, index.id = id →
        ∀ range ∈ ranges, ∀ found : KeyValue, range.contains found.key = true →
          snapshot.get found.key = some found.value →
          (rowShape table plan query.compute).Exact snapshot index found := by
  intro always
  obtain ⟨state, tableRows, id, ranges, range, found, indexed, primaryKey, body,
      decoded, isStore, isRead, isAccess, inRanges, contained, held, isEntry,
      isBody, isDecoded, differs⟩ :=
    @of_rankOrdering (.column 2) [.literal (.i64 5), .column 2] .lt (by decide)
  have isFirst : (scorePlan (.column 2) (scoreRanks [.literal (.i64 5),
      .column 2])).access.entryRanges.map Prod.fst = some 1 := by
    decide
  rw [isAccess] at isFirst
  have isIndex : id = 1 := some.inj isFirst
  obtain ⟨_, _, _, _, isEntry', isBody', isDecoded', same⟩ := always rankPlatform
    [scores (.column 2)] (built_scores _) ⟨[scores (.column 2)]⟩ rfl state.transaction
    (scores (.column 2)) tableRows ⟨mem_singleton.mpr rfl, consistent_scores
    isStore, isRead⟩ .true (scoreRanks [.literal (.i64 5), .column 2]) indifferentStats
    _ [] rfl id ranges isAccess (scoresRank (.column 2)) (mem_singleton.mpr rfl)
    isIndex.symm range inRanges found contained held
  cases isEntry.symm.trans isEntry'
  cases isBody.symm.trans isBody'
  cases isDecoded.symm.trans isDecoded'
  have isEqual := (cmpList_eq_iff_canonical _ _).mpr same
  cases differs.symm.trans isEqual

end

end SlateOrm
