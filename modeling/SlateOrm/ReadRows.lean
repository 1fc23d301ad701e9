import SlateOrm.PathRows

namespace SlateOrm

open List

/-!
# What a plan collects

Whatever paths the statistics prefer and a hint asks for, a plan collects what
the query makes of the rows of the table, each row that is answered once.
-/

/-! ## Covering plans -/

@[simp] theorem order_planHinted
    (table : TableDef) (predicate : Expr) (order : ScanOrder)
    (projection : Projection) (stats : TableStats) (sort : List SortKey)
    (hint : Option AccessHint) (compute : List Scalar) :
    (planHinted table predicate order projection stats sort hint
      compute).order = order := by
  rw [planHinted.eq_def]
  dsimp only
  split <;> rfl

/-- An index that covers a query holds what its plan decodes. -/
theorem coveredBy_rowShape
    {table : TableDef} {plan : Plan} {predicate : Expr}
    {projection : Projection} {stats : TableStats} {sort : List SortKey}
    {compute : List Scalar}
    (outputs : plan.outputColumns = planOutputColumns table predicate projection sort)
    {index : IndexDef} {id : IndexId} {ranges : List KeyRange}
    (isAccess : plan.access.entryRanges = some (id, ranges, true))
    (found : table.index id = some index)
    (covered : (matchContext table predicate projection stats sort
      compute).Covers index) :
    (rowShape table plan compute).CoveredBy index := by
  constructor
  · exact covered.plain
  · rw [rowShape]
    dsimp only
    cases access : plan.access with
    | indexScan other range covering
    | indexScans other ranges covering =>
        rw [access] at isAccess
        cases isAccess
        dsimp only
        rw [found]
        rfl
    | _ =>
        rw [access] at isAccess
        cases isAccess
  · intro ordinal isDecoded notTransient
    simp only [rowShape, outputs, Finset.mem_union, mem_toFinset]
      at isDecoded notTransient ⊢
    have isOutput := isDecoded.resolve_right notTransient
    have inside := Finset.mem_range.mp
      (planOutputColumns_subset table predicate projection sort isOutput)
    rw [planOutputColumns.eq_def] at isOutput
    cases projection with
    | all => exact covered.all rfl ordinal inside
    | columns ordinals =>
        dsimp only at isOutput
        rw [mem_toFinset, mem_filter] at isOutput
        exact covered.needed _ rfl ordinal (mem_append_left _ isOutput.1) inside
  · rintro ordinal isTransient rfl
    simp [rowShape, transientColumns] at isTransient
  · intro place scalar isComputed
    refine covered.computed place scalar isComputed (fun columns isNeeded => ?_)
    cases projection with
    | all => cases isNeeded
    | columns ordinals =>
        cases isNeeded
        refine mem_append_right _ (mem_map.mpr ⟨place, ?_, rfl⟩)
        rw [mem_range]
        exact (List.getElem?_eq_some_iff.mp isComputed).1

section

variable [Platform]

/-! ## Readable tables -/

/-- A stored row, decoded whole. -/
def decodeStored (table : TableDef) (entry : KeyValue) : Except KernelError Row := do
  let primaryKey ← Keys.decodeRowKey table entry.key
  liftSchema (decodeRow table primaryKey entry.value)

/-- The rows of a range of keys of a table. -/
def scanRows (snapshot : Snapshot) (table : TableDef) (range : KeyRange)
    (order : ScanOrder) : Cursor Row :=
  Cursor.ofList (fun entry => (decodeStored table entry).map some)
    (snapshot.scan range order)

/-- Every row of a table, in the order of the keys. -/
def readTable (snapshot : Snapshot) (table : TableDef) :
    Except KernelError (List Row) :=
  (scanRows snapshot table (KeyRange.ofPrefix (Keys.tablePrefix table))
    .ascending).collect

/-- A table of a consistent store whose rows are all read. -/
structure ReadableTable {catalog : Catalog} (wellFormed : catalog.WellFormed)
    (snapshot : Snapshot) (table : TableDef) (rows : List Row) : Prop where
  inCatalog : table ∈ catalog.tables
  consistent : (catalog.layout wellFormed).Consistent (catalog.view snapshot.get)
  reads : readTable snapshot table = .ok rows

theorem exists_decodeRow
    {table : TableDef}
    (wellFormed : table.WellFormed)
    (current : table.Current) {row : Row}
    (valid : row.validate table = .ok ())
    (fits : row.Fits) {primaryKey : List Value}
    (sameKey : primaryKey.map Value.canonical =
      (row.primaryKeyValues table).map Value.canonical) :
    ∃ found, decodeRow table primaryKey (encodeBody table row) = .ok found ∧
      found.Same row := by
  have width := Row.width_of_validate valid
  obtain ⟨found, decoded, same⟩ := decodeRowColumns_eq_restrict wellFormed
    current valid fits sameKey (Finset.range table.columns.length)
    (fun ordinal inRange => ⟨fun _ => Finset.mem_range.mpr inRange, fun _ =>
    rfl⟩ : ∀ ordinal, ordinal < table.columns.length → (isWanted none ordinal =
    true ↔ ordinal ∈ Finset.range table.columns.length))
  refine ⟨found, decoded, same.trans (Row.same_of_valueOrNull ?_ ?_)⟩
  · rw [length_restrict, width]
  · intro ordinal inRange
    rw [length_restrict] at inRange
    rw [valueOrNull_restrict inRange, if_pos (Or.inl (Finset.mem_range.mpr inRange))]

section

variable
  {catalog : Catalog}
  {wellFormed : catalog.WellFormed}
  {snapshot : Snapshot}
  {table : TableDef}

theorem current_of_readRow
    (wellFormed : catalog.WellFormed)
    {record : CatalogRow catalog} {primaryKey : List Value} {found : Row}
    (decoded : decodeRow record.table primaryKey record.body = .ok found) :
    record.table.Current := by
  have tableWellFormed := wellFormed.tables _ record.inCatalog
  intro ordinal inBody
  exact current_of_decodeRowColumns tableWellFormed
    (Row.codes_of_validate tableWellFormed record.valid)
    ⟨ordinal, inBody, rfl⟩ decoded ordinal inBody

theorem forall₂_readTable
    (wellFormed : catalog.WellFormed)
    {records : List (CatalogRow catalog)}
    (enumerates : Enumerates snapshot table records) {rows : List Row}
    (reads : readTable snapshot table = .ok rows) :
    (∀ record ∈ records, table.Current) ∧ List.Forall₂ (fun row record =>
        record.table = table ∧ row.Same record.row) rows records := by
  rw [readTable, scanRows, enumerates.scanned, Cursor.collect_ofList_map_some,
    forall₂_map_left_iff] at reads
  have each : ∀ (record : CatalogRow catalog) (row : Row),
      record.table = table ∧ decodeStored table record.entry = .ok row →
        table.Current ∧ row.Same record.row := by
    rintro record row ⟨rfl, decoded⟩
    obtain ⟨primaryKey, isKey, sameKey⟩ := exists_decodeRowKey wellFormed record
    rw [decodeStored, CatalogRow.entry, isKey] at decoded
    have read := liftSchema_eq_ok.mp decoded
    have current := current_of_readRow wellFormed read
    obtain ⟨found, isFound, same⟩ := exists_decodeRow
      (wellFormed.tables _ record.inCatalog) current record.valid record.fits sameKey
    cases read.symm.trans isFound
    exact ⟨current, same⟩
  have beside := (forall₂_and_left records rows).mpr ⟨enumerates.ofTable, reads⟩
  refine ⟨fun record member => ?_, ?_⟩
  · obtain ⟨row, -, decoded⟩ := exists_beside_left beside record member
    exact (each record row decoded).1
  · exact beside.flip.imp (fun row record decoded =>
      ⟨decoded.1, (each record row decoded).2⟩)

namespace ReadableTable

variable
  {rows : List Row}
  (readable : ReadableTable wellFormed snapshot table rows)

include readable

theorem exists_enumerates :
    ∃ records : List (CatalogRow catalog), Enumerates snapshot table records ∧
        List.Forall₂ (fun row record =>
          record.table = table ∧ row.Same record.row) rows records := by
  obtain ⟨records, enumerates⟩ := SlateOrm.exists_enumerates
    readable.consistent readable.inCatalog
  exact ⟨records, enumerates,
    (forall₂_readTable wellFormed enumerates readable.reads).2⟩

variable {record : CatalogRow catalog}

theorem current
    (stored : record.StoredIn snapshot table) :
    table.Current := by
  obtain ⟨records, enumerates⟩ := SlateOrm.exists_enumerates
    readable.consistent readable.inCatalog
  obtain ⟨other, member, -⟩ := enumerates.exists_of_storedIn stored
  exact (forall₂_readTable wellFormed enumerates readable.reads).1 other member

theorem exists_record
    {row : Row}
    (member : row ∈ rows) :
    ∃ record : CatalogRow catalog, record.StoredIn snapshot table ∧
      row.Same record.row := by
  obtain ⟨records, enumerates, beside⟩ := readable.exists_enumerates
  obtain ⟨record, inRecords, -, same⟩ := exists_beside_left beside row member
  exact ⟨record, enumerates.storedIn record inRecords, same⟩

theorem pairwise_rowKey :
    rows.Pairwise (fun row other =>
      Keys.rowKey table (row.primaryKeyValues table) ≠
        Keys.rowKey table (other.primaryKeyValues table)) := by
  obtain ⟨records, enumerates, beside⟩ := readable.exists_enumerates
  refine pairwise_of_forall₂ ?_ beside.flip enumerates.pairwise_key
  rintro record record' row row' apart ⟨ofTable, same⟩ ⟨ofTable', same'⟩ sameKey
  rw [same.rowKey, same'.rowKey] at sameKey
  refine apart ?_
  rw [CatalogRow.key, CatalogRow.key, ofTable, ofTable']
  exact sameKey

end ReadableTable

end

/-- Whether a path reads rows in the order of their keys. -/
def Access.inKeyOrder : Access → Bool
  | .pointGet _ | .tableScan _ | .nothing => true
  | _ => false

section

variable
  {catalog : Catalog}
  {wellFormed : catalog.WellFormed}
  {snapshot : Snapshot}
  {records : List (CatalogRow catalog)}

theorem EntersOnce.reverse
    {table : TableDef} {row : Row} {id : IndexId} {ranges : List KeyRange}
    (enters : EntersOnce table row id ranges) :
    EntersOnce table row id ranges.reverse := by
  constructor
  · simpa only [mem_reverse] using enters.entry
  · intro index inIndexes sameId entry inEntries
    rw [pairwise_reverse]
    exact (enters.range index inIndexes sameId entry inEntries).imp
      (fun apart both => apart both.symm)

/-- A table of a consistent store whose rows a path can make. -/
structure Access.Reads {catalog : Catalog} (access : Access)
    (wellFormed : catalog.WellFormed) (snapshot : Snapshot)
    (table : TableDef) : Prop where
  inCatalog : table ∈ catalog.tables
  consistent : (catalog.layout wellFormed).Consistent (catalog.view snapshot.get)
  /-- Where a path reads bodies, they are those of the table as it is. -/
  current : (∀ id ranges, access.entryRanges ≠ some (id, ranges, true)) →
    ∀ record : CatalogRow catalog, record.StoredIn snapshot table → table.Current

theorem ReadableTable.reads_access
    {table : TableDef} {tableRows : List Row}
    (readable : ReadableTable wellFormed snapshot table tableRows)
    (access : Access) :
    access.Reads wellFormed snapshot table :=
  ⟨readable.inCatalog, readable.consistent, fun _ _ stored => readable.current stored⟩

omit [Platform] in
theorem MatchContext.ReadsFrom.readsEntries
    {context : MatchContext} {access : Access}
    (reads : context.ReadsFrom access) {id : IndexId} {ranges : List KeyRange}
    {covering : Bool}
    (isAccess : access.entryRanges = some (id, ranges, covering)) :
    context.ReadsEntries id ranges covering := by
  cases access with
  | indexScan | indexScans =>
      cases isAccess
      exact reads
  | _ => cases isAccess

omit [Platform] in
theorem MatchContext.computed_of_read
    {context : MatchContext} {index : IndexDef}
    (isRead : index.text = true ∨ (indexKeyColumns context index).isSome = true) :
    index.text = true ∨ index.expression = none ∨
      (expressionPosition index context.compute).isSome = true := by
  refine isRead.imp_right (fun isSome => ?_)
  obtain ⟨columns, isKey⟩ := Option.isSome_iff_exists.mp isSome
  rcases indexKeyColumns_cases isKey with
    ⟨isNone, -⟩ | ⟨_, position, -, isPosition, -⟩
  · exact Or.inl isNone
  · rw [isPosition]
    exact Or.inr rfl

omit [Platform] in
theorem expressionPosition_nil
    (index : IndexDef) :
    expressionPosition index [] = none := by
  rw [expressionPosition]
  cases indexExpression index <;> rfl

/-- Whether a path looks where there is something of a row, if it looks. -/
def Access.finds (table : TableDef) (row : Row) : Access → Bool
  | .nothing => false
  | .indexScan id _ _ | .indexScans id _ _ =>
      (table.index id).any (fun index => index.admits row && (!index.text ||
          index.columns.all (fun column => column.direction = .asc)))
  | .pointGet _ | .pointGets _ | .tableScan _ => true

/--
The entries of a row that a path comes to are read as the row, and are of
columns that meet what the filter says.
-/
def Access.Serves (access : Access) (context : MatchContext) (row : Row) :
    Prop :=
  ∀ id ranges covering, access.entryRanges = some (id, ranges, covering) →
    EntryWithin context.table row id ranges →
      ∀ index ∈ context.table.indexes, index.id = id →
        index.Serves context.compute row covering ∧
          (context.Admits row → ∃ shown, context.Held index row shown)

/--
What an index that is read holds of a computed column is read as the row's, and
meets what the filter says of the column.
-/
def Access.Trusted (access : Access) (context : MatchContext) (row : Row) :
    Prop :=
  ∀ id ranges covering, access.entryRanges = some (id, ranges, covering) →
    ∀ index ∈ context.table.indexes, index.id = id →
      (expressionPosition index context.compute).isSome →
        (EntryWithin context.table row id ranges →
          index.Serves context.compute row covering) ∧
        (context.Admits row → (∀ value ∈ index.keyValues row, value.Ordered) ∧
            context.constraints.Met (index.shown context.table context.compute row))

namespace Access

variable {access : Access} {context : MatchContext} {row : Row}

theorem finds_iff
    {id : IndexId} {ranges : List KeyRange} {covering : Bool}
    (isAccess : access.entryRanges = some (id, ranges, covering))
    {table : TableDef} {index : IndexDef}
    (found : table.index id = some index) :
    access.finds table row = true ↔ index.admits row = true ∧ (index.text = true →
        ∀ column ∈ index.columns, column.direction = .asc) := by
  have isFinds : access.finds table row = (index.admits row && (!index.text ||
      index.columns.all (fun column => column.direction = .asc))) := by
    cases access with
    | indexScan | indexScans =>
        cases isAccess
        rw [finds, found]
        rfl
    | _ => cases isAccess
  rw [isFinds]
  cases index.text <;> simp

theorem finds_of_same
    (access : Access) (table : TableDef) {first second : Row}
    (same : first.Same second) :
    access.finds table first = access.finds table second := by
  cases access <;> simp only [finds, same.admits]

theorem trusted_of_uncomputed
    (uncomputed : context.compute = []) :
    access.Trusted context row := by
  intro id ranges covering _ index _ _ isSome
  rw [uncomputed, expressionPosition_nil] at isSome
  cases isSome

variable
  (tableFormed : context.table.WellFormed)
  (trusted : access.Trusted context row)
  {id : IndexId}
  {ranges : List KeyRange}
  {covering : Bool}
  (isAccess : access.entryRanges = some (id, ranges, covering))
  {index : IndexDef}
  (inIndexes : index ∈ context.table.indexes)
  (sameId : index.id = id)

include tableFormed trusted isAccess inIndexes sameId

theorem Trusted.held
    (admits : context.Admits row) :
    ∃ shown, context.Held index row shown := by
  by_cases isSome : (expressionPosition index context.compute).isSome = true
  · obtain ⟨ordered, met⟩ := (trusted id ranges covering isAccess index
      inIndexes sameId isSome).2 admits
    exact ⟨_, admits.held_of_shown tableFormed inIndexes (fun _ => ordered) met⟩
  · refine ⟨_, admits.held_of_stands tableFormed inIndexes ?_⟩
    intro position isPosition
    rw [isPosition] at isSome
    exact absurd rfl isSome

omit [Platform] trusted in
theorem plain_of_readsFrom
    (readsFrom : context.ReadsFrom access)
    (notComputed : ¬(expressionPosition index context.compute).isSome = true) :
    index.expression = none := by
  obtain ⟨other, inOther, isOther, -, isRead⟩ := (readsFrom.readsEntries isAccess).index
  obtain rfl : other = index := inj_on_of_nodup_map tableFormed.indexIds
    inOther inIndexes (isOther.trans sameId.symm)
  rcases MatchContext.computed_of_read isRead with isText | isNone | isSome
  · exact ((tableFormed.indexes other inIndexes).text isText).2.1
  · exact isNone
  · exact absurd isSome notComputed

omit isAccess inIndexes sameId in
theorem Trusted.serves
    (readsFrom : context.ReadsFrom access)
    (valid : row.validate context.table = .ok ()) :
    access.Serves context row := by
  intro id ranges covering isAccess within index inIndexes sameId
  refine ⟨?_, trusted.held tableFormed isAccess inIndexes sameId⟩
  by_cases isSome : (expressionPosition index context.compute).isSome = true
  · exact (trusted id ranges covering isAccess index inIndexes sameId isSome).1 within
  · exact IndexDef.serves_of_plain tableFormed valid inIndexes
      (plain_of_readsFrom tableFormed isAccess inIndexes sameId readsFrom isSome) _ _

end Access

/-- The order in which a path comes to rows. -/
def Access.Walks (snapshot : Snapshot) (table : TableDef) (order : ScanOrder)
    (records visited : List (CatalogRow catalog)) : Access → Prop
  | .nothing => visited = []
  | .pointGet _ => visited.length ≤ 1
  | .pointGets keys =>
      (visited.map CatalogRow.key).Sublist (keys.map (Keys.rowKey table))
  | .tableScan _ => visited.Sublist (order.arrange records)
  | .indexScan id range _ => ∃ index ∈ table.indexes, index.id = id ∧
      List.Forall₂ (EntryOf snapshot table index) (snapshot.scan range order) visited
  | .indexScans id ranges _ => ∃ index ∈ table.indexes, index.id = id ∧
      List.Forall₂ (EntryOf snapshot table index) ((order.arrange ranges).flatMap
          (fun range => snapshot.scan range order)) visited

/-- A path collects the rows that are answered, of those it comes to. -/
theorem collect_source
    {shape : RowShape} {access : Access}
    (readable : access.Reads wellFormed snapshot shape.table)
    (enumerates : Enumerates snapshot shape.table records)
    (sound : shape.Sound)
    {context : MatchContext}
    (isContext : context.table = shape.table)
    (isCompute : context.compute = shape.compute)
    (serves : ∀ record : CatalogRow catalog,
      record.StoredIn snapshot shape.table → access.Serves context record.row)
    (readsFrom : context.ReadsFrom access)
    (covered : ∀ index id ranges, access.entryRanges = some (id, ranges, true) →
      index ∈ shape.table.indexes → index.id = id →
      covers context index = true → shape.CoveredBy index)
    (once : ∀ record : CatalogRow catalog, record.StoredIn snapshot shape.table →
      (shape.answerTo record).isSome → access.VisitsOnce shape.table record.row)
    (order : ScanOrder) :
    ∃ (rows : List Row) (visited : List (CatalogRow catalog)),
      (source snapshot shape order access).collect = .ok rows ∧
      rows.map Row.canonical = visited.filterMap shape.answerTo ∧
      Visits shape snapshot visited ∧
      access.Walks snapshot shape.table order records visited ∧
      ∀ record ∈ records, access.Reaches shape.table record.row →
        ∃ other ∈ visited, other.key = record.key := by
  have isKey : ∀ record ∈ records, Keys.rowKey shape.table
      (record.row.primaryKeyValues shape.table) = record.key := by
    intro record member
    rw [CatalogRow.key, enumerates.ofTable record member]
  -- The index of a path, with its ranges in either order.
  have ofIndex : ∀ (id : IndexId) (ranges reading : List KeyRange)
      (covering : Bool), access.entryRanges = some (id, ranges, covering) →
      context.ReadsEntries id ranges covering →
      (∀ range, range ∈ reading ↔ range ∈ ranges) →
      (∀ record : CatalogRow catalog, record.StoredIn snapshot shape.table →
        (shape.answerTo record).isSome → EntersOnce shape.table record.row id reading) →
      ∃ (rows : List Row) (visited : List (CatalogRow catalog)),
        (indexSource snapshot shape id reading covering order).collect = .ok rows ∧
        rows.map Row.canonical = visited.filterMap shape.answerTo ∧
        Visits shape snapshot visited ∧
        (∃ index ∈ shape.table.indexes, index.id = id ∧
          List.Forall₂ (EntryOf snapshot shape.table index)
            (reading.flatMap (fun range => snapshot.scan range order))
            visited) ∧
        ∀ record ∈ records, EntryWithin shape.table record.row id ranges →
          ∃ other ∈ visited, other.key = record.key := by
    intro id ranges reading covering isAccess readsEntries sameRanges once
    obtain ⟨index, inIndexes, rfl, isCovering, isRead⟩ := readsEntries.index
    rw [isContext] at inIndexes
    have isCovered : covering = true → shape.CoveredBy index := by
      intro isTrue
      subst isTrue
      exact covered index index.id ranges isAccess inIndexes rfl (isCovering rfl)
    have sameEntries : ∀ row : Row, EntryWithin shape.table row index.id reading ↔
          EntryWithin shape.table row index.id ranges := by
      intro row
      simp only [EntryWithin, sameRanges]
    have served : ∀ record : CatalogRow catalog, record.StoredIn snapshot shape.table →
        EntryWithin shape.table record.row index.id reading →
          index.Serves shape.compute record.row covering := by
      intro record stored within
      rw [sameEntries, ← isContext] at within
      rw [← isCompute]
      exact (serves record stored _ _ _ isAccess within index
        (isContext ▸ inIndexes) rfl).1
    obtain ⟨rows, visited, collected, areAnswers, visits, beside, complete⟩ :=
      collect_indexSource wellFormed sound
        (fun isFetched => readable.current (fun id' ranges' isCovered => by
          rw [isAccess] at isCovered
          cases isFetched
          cases isCovered)) enumerates
        readable.inCatalog readable.consistent inIndexes
        (isCompute ▸ MatchContext.computed_of_read isRead) served isCovered
        (fun range member =>
          readsEntries.within range ((sameRanges range).mp member)) once order
    exact ⟨rows, visited, collected, areAnswers, visits,
      ⟨index, inIndexes, rfl, beside⟩, fun record member within =>
      complete record member ((sameEntries record.row).mpr within)⟩
  cases access with
  | nothing => exact ⟨[], [], rfl, rfl, ⟨by simp, .nil⟩, rfl, by rintro _ _ ⟨⟩⟩
  | pointGet key =>
      obtain ⟨rows, visited, collected, areAnswers, visits, short, complete⟩ :=
        collect_pointGet wellFormed sound (readable.current (by rintro _ _ ⟨⟩))
          enumerates readable.inCatalog readable.consistent key order
      exact ⟨rows, visited, collected, areAnswers, visits, short, fun record member
        isReached => complete record member (Eq.trans isReached (isKey record member))⟩
  | pointGets keys =>
      obtain ⟨rows, visited, collected, areAnswers, visits, inOrder, complete⟩ :=
        collect_pointGets wellFormed sound (readable.current (by rintro _ _ ⟨⟩))
          enumerates readable.inCatalog readable.consistent once order
      refine ⟨rows, visited, collected, areAnswers, visits, inOrder, ?_⟩
      rintro record member ⟨key, inKeys, same⟩
      exact complete record member ⟨key, inKeys, same.trans (isKey record member)⟩
  | tableScan range =>
      obtain ⟨rows, visited, collected, areAnswers, visits, inOrder, complete⟩ :=
        collect_tableScan wellFormed sound (readable.current (by rintro _ _ ⟨⟩))
          enumerates (fun key contained => isContext ▸ readsFrom key contained) order
      refine ⟨rows, visited, collected, areAnswers, visits, inOrder, ?_⟩
      intro record member contained
      exact ⟨record, complete record member ((isKey record member) ▸ contained), rfl⟩
  | indexScan id range covering =>
      obtain ⟨rows, visited, collected, areAnswers, visits, inOrder, complete⟩ :=
        ofIndex id [range] [range] covering rfl readsFrom (fun _ => Iff.rfl) once
      rw [flatMap_singleton] at inOrder
      exact ⟨rows, visited, collected, areAnswers, visits, inOrder, complete⟩
  | indexScans id ranges covering =>
      cases order with
      | ascending =>
          exact ofIndex id ranges ranges covering rfl readsFrom (fun _ => Iff.rfl) once
      | descending =>
          exact ofIndex id ranges ranges.reverse covering rfl readsFrom
            (fun _ => mem_reverse) (fun record stored isAnswered =>
              (once record stored isAnswered).reverse)

end

/-! ## Selections -/

/--
The stored columns that a query returns: what it asks for, what its filter and
its order read, and the primary key, unless only a computed column reads it.
-/
def Query.kept (query : Query) (table : TableDef) (filter : Expr) :
    ColumnSet :=
  let outputs := planOutputColumns table filter query.projection query.sort
  (outputs ∪ table.primaryKey.toFinset) \
    (transientColumns table.columns.length outputs query.compute).toFinset

/-- How a query is carried out under a filter. -/
def Query.planned (query : Query) (table : TableDef) (filter : Expr)
    (stats : TableStats) (hidden : List Ordinal) : Plan :=
  { planHinted table filter query.order query.projection stats query.sort
      query.hint query.compute with concealed := hidden }

/-- A row with nulls in place of the stored columns that are not kept. -/
def Row.keep (row : Row) (width : Nat) (kept : ColumnSet) : Row :=
  ⟨row.values.mapIdx (fun ordinal value =>
    if ordinal < width ∧ ordinal ∉ kept then .null else value)⟩

/--
What a query asks for of a row: the row with its computed columns, if the
filter admits it, as far as it is returned.
-/
def Query.select (query : Query) (table : TableDef) (filter : Expr)
    (row : Row) : Option Row :=
  let extended := extendRow row query.compute [] none
  if filter.admits extended then
    some (extended.keep table.columns.length (query.kept table filter))
  else
    none

variable {ordinal : Ordinal} {row : Row} {table : TableDef} {query : Query}
  {filter : Expr}

omit [Platform] in
theorem getElem?_keep_of_kept
    (row : Row) {width : Nat} {kept : ColumnSet}
    (isKept : ordinal < width → ordinal ∈ kept) :
    (row.keep width kept).values[ordinal]? = row.values[ordinal]? := by
  have unblanked : ¬ (ordinal < width ∧ ordinal ∉ kept) :=
    fun both => both.2 (isKept both.1)
  rw [Row.keep, getElem?_mapIdx]
  simp only [if_neg unblanked, Option.map_id']

omit [Platform] in
theorem getElem?_keep_of_notMem
    {width : Nat} {kept : ColumnSet}
    (inside : ordinal < width)
    (within : ordinal < row.values.length)
    (notKept : ordinal ∉ kept) :
    (row.keep width kept).values[ordinal]? = some .null := by
  rw [Row.keep, getElem?_mapIdx, getElem?_eq_getElem within]
  exact congrArg some (if_pos ⟨inside, notKept⟩)

/-- A plan returns null for the columns that are not kept. -/
theorem RowShape.getElem?_output_of_notMem
    {shape : RowShape}
    (computed : shape.compute = [] → shape.transient = [])
    (row : Row)
    (inside : ordinal < shape.table.columns.length)
    (notKept : ordinal ∉ (shape.decodeColumns ∪ shape.table.primaryKey.toFinset) \
        shape.transient.toFinset) :
    (shape.output row).values[ordinal]? = some .null := by
  have within : ordinal < (row.restrict shape.table
      shape.decodeColumns).values.length := by
    rw [length_restrict]
    exact inside
  have blank : ordinal ∉ shape.transient →
      (row.restrict shape.table shape.decodeColumns).values[ordinal]? = some .null := by
    intro notTransient
    rw [Finset.mem_sdiff, Finset.mem_union, mem_toFinset,
      mem_toFinset, not_and_not_right] at notKept
    rw [Row.restrict, getElem?_map, getElem?_range inside]
    refine congrArg some (if_neg (fun isKnown => ?_))
    exact notTransient (notKept isKnown)
  rw [RowShape.output, extendRow]
  split
  · next isEmpty =>
      refine blank ?_
      rw [computed (isEmpty_iff.mp isEmpty)]
      exact not_mem_nil
  · rw [getElem?_foldl_null, getElem?_appendComputed none within]
    split
    · rw [getElem?_eq_getElem within]
      rfl
    · next notTransient => exact blank notTransient

theorem Query.admits_of_select
    (isSelected : (query.select table filter row).isSome) :
    filter.admits (extendRow row query.compute [] none) = true := by
  rw [Query.select] at isSelected
  split at isSelected
  · next admitted => exact admitted
  · cases isSelected

/-- A plan returns of a row what its query keeps. -/
theorem same_output_keep
    {plan : Plan}
    (outputs : plan.outputColumns =
      planOutputColumns table filter query.projection query.sort)
    (sound : (rowShape table plan query.compute).Sound)
    (width : row.values.length = table.columns.length) :
    ((rowShape table plan query.compute).output row).Same
      ((extendRow row query.compute [] none).keep table.columns.length
        (query.kept table filter)) := by
  generalize isShape : rowShape table plan query.compute = shape at sound ⊢
  have isTable : shape.table = table := isShape ▸ rfl
  have isCompute : shape.compute = query.compute := isShape ▸ rfl
  have computed : shape.compute = [] → shape.transient = [] := by
    intro isEmpty
    rw [isCompute] at isEmpty
    rw [← isShape, rowShape, isEmpty]
    rfl
  have isKept : query.kept table filter =
      (shape.decodeColumns ∪ table.primaryKey.toFinset) \
        shape.transient.toFinset := by
    rw [← isShape]
    ext ordinal
    simp only [Query.kept, rowShape, outputs, Finset.mem_sdiff, Finset.mem_union]
    tauto
  rw [← isTable] at width isKept ⊢
  rw [← isCompute, isKept]
  let known (ordinal : Ordinal) : Prop :=
    ordinal ∈ shape.decodeColumns ∨ ordinal ∈ shape.table.primaryKey
  have agree : AgreeUpTo shape.table.columns.length known
      (row.restrict shape.table shape.decodeColumns).values row.values :=
    RowShape.agreeUpTo_restrict_kept width shape.decodeColumns
  refine ext_getElem? (fun ordinal => ?_)
  rw [getElem?_map, getElem?_map]
  by_cases blanked : ordinal < shape.table.columns.length ∧ ordinal ∉
    (shape.decodeColumns ∪ shape.table.primaryKey.toFinset) \ shape.transient.toFinset
  · obtain ⟨inside, notKept⟩ := blanked
    have within : ordinal < (extendRow row shape.compute [] none).values.length := by
      have within : ordinal < row.values.length := width ▸ inside
      have found : (extendRow row shape.compute [] none).values[ordinal]? =
          some row.values[ordinal] :=
        (get_extendRow shape.compute within).trans (getElem?_eq_getElem within)
      exact (List.getElem?_eq_some_iff.mp found).1
    rw [RowShape.getElem?_output_of_notMem computed row inside notKept,
      getElem?_keep_of_notMem inside within notKept]
  · have stays : ordinal < shape.table.columns.length → ordinal ∈
        (shape.decodeColumns ∪ shape.table.primaryKey.toFinset) \
          shape.transient.toFinset :=
      fun inside => not_not.mp (fun notKept => blanked ⟨inside, notKept⟩)
    rw [getElem?_keep_of_kept _ stays]
    refine canonical_get_extendRow (fun scalar isComputed column isRead inRange =>
      Or.inl (sound.computed scalar isComputed column isRead inRange)) agree
      (fun inside => ?_) (fun isTransient => ?_)
    · have isKnown := (Finset.mem_sdiff.mp (stays inside)).1
      rw [Finset.mem_union, mem_toFinset] at isKnown
      exact isKnown
    · refine (Finset.mem_sdiff.mp (stays ?_)).2 ?_
      · exact sound.transient ordinal isTransient
      · exact mem_toFinset.mpr isTransient

theorem canonical_answer_select
    {plan : Plan}
    (residual : plan.residual = filter.prepared)
    (outputs : plan.outputColumns =
      planOutputColumns table filter query.projection query.sort)
    (sound : (rowShape table plan query.compute).Sound)
    (width : row.values.length = table.columns.length) :
    ((rowShape table plan query.compute).answer row).map Row.canonical =
      (query.select table filter row).map Row.canonical := by
  have isResidual : (rowShape table plan query.compute).residual =
      filter.prepared := residual
  have isCompute : (rowShape table plan query.compute).compute = query.compute := rfl
  rw [RowShape.answer, Query.select, isResidual, isCompute, Expr.admits_prepared]
  split
  · exact congrArg some (same_output_keep outputs sound width)
  · rfl

omit [Platform] in
theorem Row.Same.keep
    {first second : Row} (same : first.Same second) (width : Nat)
    (kept : ColumnSet) :
    (first.keep width kept).Same (second.keep width kept) := by
  refine ext_getElem? (fun ordinal => ?_)
  have here := same.sameColumns ordinal
  simp only [Row.get] at here
  rw [getElem?_map, getElem?_map, Row.keep, Row.keep, getElem?_mapIdx, getElem?_mapIdx]
  by_cases blanked : ordinal < width ∧ ordinal ∉ kept
  · have nulls := congrArg (Option.map (fun _ => Value.null)) here
    rw [Option.map_map, Option.map_map] at nulls
    simp only [if_pos blanked, Option.map_map]
    exact nulls
  · simp only [if_neg blanked, Option.map_id']
    exact here

theorem Query.select_of_same
    (query : Query) (table : TableDef) (filter : Expr) {first second : Row}
    (same : first.Same second) :
    (query.select table filter first).map Row.canonical =
      (query.select table filter second).map Row.canonical := by
  have extended := same.extendRow query.compute []
  rw [Query.select, Query.select, filter.admits_of_same extended]
  split
  · exact congrArg some (extended.keep _ _)
  · rfl

/-! ## Collected rows -/

/-- No row that a filter admits is in an index that the filter is misread in. -/
def Findable (table : TableDef) (filter : Expr) (compute : List Scalar)
    (rows : List Row) : Prop :=
  ∀ row ∈ rows, filter.admits (extendRow row compute [] none) = true →
    ∀ index ∈ table.indexes, index.Misread → index.Searched filter →
      admittedEntries table index row = []

section

variable
  {catalog : Catalog}
  {wellFormed : catalog.WellFormed}
  {snapshot : Snapshot}
  {table : TableDef}
  {tableRows : List Row}

/-- What a query makes of a stored row. -/
def Query.selectOf (query : Query) (table : TableDef) (filter : Expr)
    (record : CatalogRow catalog) : Option (List Value) :=
  (query.select table filter record.row).map Row.canonical

variable {hidden : List Ordinal} {query : Query} {filter : Expr} {plan : Plan}

/-- A plan collects what its query makes of the rows that its path comes to. -/
theorem collect_visited
    {records : List (CatalogRow catalog)}
    (enumerates : Enumerates snapshot table records) (stats : TableStats)
    (serves : ∀ record : CatalogRow catalog, record.StoredIn snapshot table →
      plan.access.Serves (matchContext table filter query.projection stats
        query.sort query.compute) record.row)
    (readable : plan.access.Reads wellFormed snapshot table)
    (isPlan : plan = query.planned table filter stats hidden) :
    ∃ (rows : List Row) (visited : List (CatalogRow catalog)),
      (source snapshot (rowShape table plan query.compute) plan.order
        plan.access).collect = .ok rows ∧
      rows.map Row.canonical = visited.filterMap (query.selectOf table filter) ∧
      (∀ record ∈ visited, record.StoredIn snapshot table) ∧
      visited.Pairwise (fun record other =>
        (query.selectOf table filter record).isSome → record.key ≠ other.key) ∧
      plan.access.Walks snapshot table query.order records visited ∧
      ∀ record ∈ records, plan.access.Reaches table record.row →
        ∃ other ∈ visited, other.key = record.key := by
  have tableFormed := wellFormed.tables table readable.inCatalog
  have isOrder : plan.order = query.order := isPlan ▸ order_planHinted ..
  have outputs : plan.outputColumns =
      planOutputColumns table filter query.projection query.sort :=
    isPlan ▸ outputColumns_planHinted ..
  have residual : plan.residual = filter.prepared := isPlan ▸ residual_planHinted ..
  have sound : (rowShape table plan query.compute).Sound := by
    rw [isPlan]
    exact sound_rowShape ..
  have isAnswer : ∀ record : CatalogRow catalog, record.table = table →
      (rowShape table plan query.compute).answerTo record =
        query.selectOf table filter record := by
    rintro record rfl
    exact canonical_answer_select residual outputs sound
      (Row.width_of_validate record.valid)
  have once : ∀ record : CatalogRow catalog, record.StoredIn snapshot table →
      ((rowShape table plan query.compute).answerTo record).isSome →
        plan.access.VisitsOnce table record.row := by
    intro record stored isAnswered
    have isTable := stored.ofTable
    rw [isAnswer record isTable, Query.selectOf, Option.isSome_map] at isAnswered
    have keyable := Row.keyable_of_validate tableFormed (isTable ▸ record.valid)
    have admitted := Query.admits_of_select isAnswered
    subst isPlan
    refine visitsOnce_planHinted tableFormed keyable admitted _ _ _ _ _ ?_
    intro id ranges covering isAccess within index inIndexes sameId
    exact (serves record stored id ranges covering isAccess within index
      inIndexes sameId).2 (admits_matchContext keyable admitted _ _ _)
  have readsFrom : (matchContext table filter query.projection stats
      query.sort query.compute).ReadsFrom plan.access := by
    rw [isPlan]
    exact readsFrom_planHinted ..
  obtain ⟨rows, visited, collected, areVisited, visits, walks, complete⟩ :=
    collect_source readable enumerates sound rfl rfl serves readsFrom
    (fun index id ranges isAccess inIndexes sameId isCovering => coveredBy_rowShape
    outputs isAccess (sameId ▸ wellFormed.index_eq_some readable.inCatalog inIndexes)
    (MatchContext.covers_of_covers isCovering)) once plan.order
  refine ⟨rows, visited, collected, ?_, visits.storedIn, ?_, isOrder ▸ walks, complete⟩
  · rw [areVisited]
    exact filterMap_congr (fun record member =>
      isAnswer record (visits.storedIn record member).ofTable)
  · refine visits.once.imp_of_mem (fun {record other} member _ apart => ?_)
    rw [← isAnswer record (visits.storedIn record member).ofTable]
    exact apart

section

variable
  (stats : TableStats)
  (isPlan : plan = query.planned table filter stats hidden)

include isPlan

/-- A plan reaches the rows that its path finds. -/
theorem reaches_planned
    (wellFormed : catalog.WellFormed)
    (inCatalog : table ∈ catalog.tables)
    {record : CatalogRow catalog} (stored : record.StoredIn snapshot table)
    (trusted : plan.access.Trusted (matchContext table filter query.projection
      stats query.sort query.compute) record.row)
    (isSelected : (query.selectOf table filter record).isSome)
    (found : plan.access.finds table record.row = true) :
    plan.access.Reaches table record.row := by
  have tableFormed := wellFormed.tables table inCatalog
  rw [Query.selectOf, Option.isSome_map] at isSelected
  have admitted := Query.admits_of_select isSelected
  have keyable := Row.keyable_of_validate tableFormed (stored.ofTable ▸ record.valid)
  subst isPlan
  refine reaches_planHinted tableFormed keyable admitted _ _ _ _ _ ?_
  intro index inIndexes candidate matched isAccess
  obtain ⟨ranges, covering, isRanges⟩ := MatchContext.entryRanges_of_matchIndex matched
  have isAccess : (query.planned table filter stats hidden).access =
      prunedAccess candidate.access := isAccess
  rcases MatchContext.prunedAccess_cases candidate.access with
    isSame | isNothing
  · rw [isSame] at isAccess
    rw [← isAccess] at isRanges
    obtain ⟨admits, ascending⟩ := (Access.finds_iff isRanges
      (wellFormed.index_eq_some inCatalog inIndexes)).mp found
    exact ⟨admits, ascending, trusted.held tableFormed isRanges inIndexes rfl
      (admits_matchContext keyable admitted _ _ _)⟩
  · rw [isAccess, isNothing] at found
    cases found

/-- A path over an index finds the rows that have entries in its ranges. -/
theorem finds_of_within
    (wellFormed : catalog.WellFormed)
    (inCatalog : table ∈ catalog.tables)
    {record : CatalogRow catalog} (stored : record.StoredIn snapshot table)
    (isSelected : (query.selectOf table filter record).isSome) {id : IndexId}
    {ranges : List KeyRange} {covering : Bool}
    (isRanges : plan.access.entryRanges = some (id, ranges, covering))
    (within : EntryWithin table record.row id ranges) :
    plan.access.finds table record.row = true := by
  have tableFormed := wellFormed.tables table inCatalog
  rw [Query.selectOf, Option.isSome_map] at isSelected
  have admits := admits_matchContext (Row.keyable_of_validate tableFormed
    (stored.ofTable ▸ record.valid)) (Query.admits_of_select isSelected)
    query.projection stats query.sort
  obtain ⟨index, inIndexes, rfl, entry, inEntries, range, inRanges, contained⟩ := within
  refine (Access.finds_iff isRanges (wellFormed.index_eq_some inCatalog
    inIndexes)).mpr ⟨(mem_admittedEntries.mp inEntries).1, fun isText => ?_⟩
  subst isPlan
  rcases access_planHinted table filter query.order query.projection stats
    query.sort query.hint query.compute with
    ⟨-, isNothing⟩ | ⟨candidate, considered, isAccess⟩
  · rw [Query.planned, isNothing] at isRanges
    cases isRanges
  · rw [Query.planned, isAccess] at isRanges
    rcases MatchContext.prunedAccess_cases candidate.access with
      isSame | isNothing
    · rw [isSame] at isRanges
      obtain ⟨other, inOther, isOther, matched⟩ :=
        MatchContext.matchIndex_of_candidates candidate considered _ _ _ isRanges
      obtain rfl : other = index := inj_on_of_nodup_map tableFormed.indexIds
        inOther inIndexes isOther
      exact MatchContext.ascending_of_within tableFormed admits inIndexes
        isText matched isRanges inEntries inRanges contained
    · rw [isNothing] at isRanges
      cases isRanges

/-- A path finds the rows that it comes to and that are selected. -/
theorem finds_of_walks
    (wellFormed : catalog.WellFormed)
    (inCatalog : table ∈ catalog.tables)
    {records visited : List (CatalogRow catalog)}
    (walks : plan.access.Walks snapshot table query.order records visited)
    {record : CatalogRow catalog}
    (member : record ∈ visited)
    (stored : record.StoredIn snapshot table)
    (isSelected : (query.selectOf table filter record).isSome) :
    plan.access.finds table record.row = true := by
  have ofEntry {id : IndexId} {ranges reading : List KeyRange} {covering : Bool}
      (isRanges : plan.access.entryRanges = some (id, ranges, covering))
      (within : ∀ range ∈ reading, range ∈ ranges)
      (walks : ∃ index ∈ table.indexes, index.id = id ∧
        List.Forall₂ (EntryOf snapshot table index)
          (reading.flatMap (fun range => snapshot.scan range query.order))
          visited) :
      plan.access.finds table record.row = true := by
    obtain ⟨index, inIndexes, sameId, beside⟩ := walks
    obtain ⟨_, inScans, -, entry, inEntries, rfl⟩ :=
      exists_beside_right beside record member
    obtain ⟨range, inReading, inScan⟩ := mem_flatMap.mp inScans
    exact finds_of_within stats isPlan wellFormed inCatalog stored isSelected
      isRanges ⟨index, inIndexes, sameId, entry, inEntries, range,
        within range inReading, (mem_scan.mp inScan).1⟩
  cases access : plan.access with
  | nothing =>
      rw [access] at walks
      rw [show visited = [] from walks] at member
      cases member
  | indexScan id range covering =>
      rw [access] at walks ofEntry
      have isRanges : (Access.indexScan id range covering).entryRanges =
          some (id, [range], covering) := rfl
      refine ofEntry isRanges (fun _ member => member) ?_
      rw [flatMap_singleton]
      exact walks
  | indexScans id ranges covering =>
      rw [access] at walks ofEntry
      exact ofEntry rfl
        (fun range => (query.order.perm_arrange ranges).mem_iff.mp) walks
  | _ => rfl

/-- Without computed columns, a path finds what no index is misread for. -/
theorem finds_of_findable
    (readable : ReadableTable wellFormed snapshot table tableRows)
    (uncomputed : query.compute = [])
    (findable : Findable table filter query.compute tableRows) {row : Row}
    (member : row ∈ tableRows)
    (admitted : filter.admits (extendRow row query.compute [] none) = true) :
    plan.access.finds table row = true := by
  have tableFormed := wellFormed.tables table readable.inCatalog
  obtain ⟨records, enumerates, beside⟩ := readable.exists_enumerates
  obtain ⟨record, inRecords, -, same⟩ := exists_beside_left beside row member
  have stored := enumerates.storedIn record inRecords
  have admitted' : filter.admits (extendRow record.row query.compute [] none) =
      true := by
    rw [← filter.admits_of_same (same.extendRow query.compute [])]
    exact admitted
  have keyable := Row.keyable_of_validate tableFormed (stored.ofTable ▸ record.valid)
  have isSelected : (query.selectOf table filter record).isSome := by
    rw [Query.selectOf, Option.isSome_map, Query.select]
    exact if_pos admitted' ▸ rfl
  rw [plan.access.finds_of_same table same]
  have reaches : plan.access.Reaches table record.row := by
    subst isPlan
    refine reaches_planHinted tableFormed keyable admitted' _ _ _ _ _ ?_
    intro index inIndexes candidate matched _
    have admits := admits_matchContext keyable admitted' query.projection stats
      query.sort
    have asked := MatchContext.asked_of_matchIndex tableFormed admits inIndexes matched
    have holds : index.admits record.row = true := by
      refine admits_of_evaluateOver asked.planned ?_
      have onRow := asked.holds
      rw [show (matchContext table filter query.projection stats query.sort
        query.compute).compute = [] from uncomputed] at onRow
      exact onRow
    refine ⟨holds, fun isText => ?_, _, admits.held_of_stands tableFormed inIndexes ?_⟩
    · intro column isColumn
      cases direction : column.direction with
      | asc => rfl
      | desc =>
          have noEntries := findable row member admitted index inIndexes
            ⟨isText, ⟨column, isColumn, direction⟩, asked.planned⟩
            (MatchContext.searched_of_matchIndex isText matched)
          obtain ⟨values, isSet⟩ := exists_mem_of_ne_nil _ (asked.worded isText)
          have isEntry : _ ∈ admittedEntries table index record.row :=
            mem_admittedEntries.mpr ⟨holds, values, isSet, rfl⟩
          rw [← same.admittedEntries, noEntries] at isEntry
          cases isEntry
    · intro position isPosition
      rw [show (matchContext table filter query.projection stats query.sort
        query.compute).compute = [] from uncomputed,
        expressionPosition_nil] at isPosition
      cases isPosition
  cases access : plan.access with
  | nothing =>
      rw [access] at reaches
      cases reaches
  | indexScan id range covering
  | indexScans id ranges covering =>
      rw [access] at reaches
      rw [← access]
      exact finds_of_within stats isPlan wellFormed readable.inCatalog stored
        isSelected (congrArg Access.entryRanges access) reaches
  | _ => rfl

variable
  (readable : ReadableTable wellFormed snapshot table tableRows)
  (trusted : ∀ record : CatalogRow catalog, record.StoredIn snapshot table →
    plan.access.Trusted (matchContext table filter query.projection stats
      query.sort query.compute) record.row)

include readable trusted

/-- A plan comes to what it selects of the rows that its path finds. -/
theorem walk_planned :
    ∃ (rows : List Row) (records visited : List (CatalogRow catalog)),
      (source snapshot (rowShape table plan query.compute) plan.order
        plan.access).collect = .ok rows ∧
      rows.map Row.canonical = visited.filterMap (query.selectOf table filter) ∧
      Enumerates snapshot table records ∧
      (∀ order : ScanOrder, (((order.arrange tableRows).filter
          (plan.access.finds table)).filterMap
            (query.select table filter)).map Row.canonical =
        ((order.arrange records).filter (fun record =>
          plan.access.finds table record.row)).filterMap
            (query.selectOf table filter)) ∧
      (∀ record ∈ visited, record.StoredIn snapshot table) ∧
      plan.access.Walks snapshot table query.order records visited ∧
      (∀ record ∈ records, plan.access.finds table record.row = true →
        (query.selectOf table filter record).isSome →
          ∃ other ∈ visited, other.key = record.key) ∧
      (visited.filterMap (query.selectOf table filter)).Perm
        ((records.filter (fun record =>
          plan.access.finds table record.row)).filterMap
            (query.selectOf table filter)) := by
  obtain ⟨records, enumerates, beside⟩ := readable.exists_enumerates
  have readsFrom : (matchContext table filter query.projection stats
      query.sort query.compute).ReadsFrom plan.access := by
    rw [isPlan]
    exact readsFrom_planHinted ..
  obtain ⟨rows, visited, collected, areVisited, storedIn, once, walks,
    complete⟩ := collect_visited enumerates stats (fun record stored =>
    (trusted record stored).serves (wellFormed.tables table readable.inCatalog)
    readsFrom (stored.ofTable ▸ record.valid)) (readable.reads_access
    plan.access) isPlan
  have answers : List.Forall₂ (fun row record =>
      (if plan.access.finds table row then
          (query.select table filter row).map Row.canonical else none) =
        (if plan.access.finds table record.row then
          query.selectOf table filter record else none))
        tableRows records := by
    refine beside.imp (fun row record both => ?_)
    rw [plan.access.finds_of_same table both.2]
    split
    · exact query.select_of_same table filter both.2
    · rfl
  have all : ∀ record ∈ records, plan.access.finds table record.row = true →
      (query.selectOf table filter record).isSome →
        ∃ other ∈ visited, other.key = record.key := by
    intro record member found isSelected
    have stored := enumerates.storedIn record member
    exact complete record member (reaches_planned stats isPlan wellFormed
      readable.inCatalog stored (trusted record stored) isSelected found)
  refine ⟨rows, records, visited, collected, areVisited, enumerates, ?_,
    storedIn, walks, all, ?_⟩
  · intro order
    rw [map_filterMap, filterMap_filter, filterMap_filter]
    refine filterMap_eq_of_forall₂ ?_
    cases order with
    | ascending => exact answers
    | descending => exact forall₂_reverse_iff.mpr answers
  · have areStored : ∀ record ∈ visited ++ records, record.StoredIn snapshot table :=
      forall_mem_append.mpr ⟨storedIn, enumerates.storedIn⟩
    have once' : records.Pairwise (fun record other =>
        (query.selectOf table filter record).isSome → record.key ≠ other.key) := by
      refine enumerates.pairwise_key.imp (fun {record other} differ => ?_)
      exact fun _ => differ
    have sameStored : ∀ record ∈ visited ++ records,
        ∀ other ∈ visited ++ records, record.key = other.key →
          record.row.Same other.row :=
      fun record member other member' => (areStored record member).same_of_key
        wellFormed (areStored other member')
    refine perm_filterMap_of_visits ?_ once (once'.filter _) ?_ ?_
    · have within : ∀ record ∈ visited ++ records.filter (fun record =>
          plan.access.finds table record.row), record ∈ visited ++ records :=
        fun record member => mem_append.mpr ((mem_append.mp member).imp_right
          (fun inFound => (mem_filter.mp inFound).1))
      intro record member other member' sameKey
      exact query.select_of_same table filter (sameStored record
        (within record member) other (within other member') sameKey)
    · intro record member isSelected
      obtain ⟨other, inRecords, sameKey⟩ :=
        enumerates.exists_of_storedIn (storedIn record member)
      refine ⟨other, mem_filter.mpr ⟨inRecords, ?_⟩, sameKey⟩
      rw [plan.access.finds_of_same table (sameStored other
        (mem_append_right _ inRecords) record (mem_append_left _ member) sameKey)]
      exact finds_of_walks stats isPlan wellFormed readable.inCatalog walks member
        (storedIn record member) isSelected
    · intro record member isSelected
      obtain ⟨inRecords, found⟩ := mem_filter.mp member
      exact all record inRecords found isSelected

/-- A plan collects what its query makes of the rows that its path finds. -/
theorem collect_planned :
    ∃ rows, (source snapshot (rowShape table plan query.compute) plan.order
        plan.access).collect = .ok rows ∧
      (rows.map Row.canonical).Perm
        (((tableRows.filter (plan.access.finds table)).filterMap
          (query.select table filter)).map Row.canonical) ∧
      (plan.access.inKeyOrder = true → rows.map Row.canonical =
        (((query.order.arrange tableRows).filter (plan.access.finds table)).filterMap
            (query.select table filter)).map Row.canonical) := by
  obtain ⟨rows, records, visited, collected, areVisited, -, areAnswers, -,
    walks, -, perm⟩ := walk_planned stats isPlan readable trusted
  refine ⟨rows, collected, ?_, fun isKeyOrder => ?_⟩
  · rw [areVisited]
    exact perm.trans (List.Perm.of_eq (areAnswers .ascending).symm)
  · rw [areVisited, areAnswers]
    have permArranged := perm.trans (((query.order.perm_arrange
      records).filter _).symm.filterMap (query.selectOf table filter))
    have ofShort : visited.length ≤ 1 →
        visited.filterMap (query.selectOf table filter) =
          ((query.order.arrange records).filter (fun record =>
            plan.access.finds table record.row)).filterMap
              (query.selectOf table filter) :=
      fun short => eq_of_perm_of_length_le_one permArranged
        ((length_filterMap_le _ _).trans short)
    cases isAccess : plan.access with
    | nothing =>
        rw [isAccess] at walks
        exact isAccess ▸ ofShort (walks ▸ Nat.zero_le _)
    | pointGet key =>
        rw [isAccess] at walks
        exact isAccess ▸ ofShort walks
    | tableScan range =>
        have all : ∀ record : CatalogRow catalog,
            plan.access.finds table record.row = true :=
          fun _ => isAccess ▸ rfl
        rw [filter_eq_self.mpr (fun record _ => all record)] at permArranged
        rw [← isAccess, filter_eq_self.mpr (fun record _ => all record)]
        rw [isAccess] at walks
        exact (List.Sublist.filterMap _ walks).eq_of_length permArranged.length_eq
    | _ =>
        rw [isAccess] at isKeyOrder
        cases isKeyOrder

end

end

end

end SlateOrm
