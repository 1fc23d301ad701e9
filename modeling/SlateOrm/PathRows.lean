import SlateOrm.EntryRows
import SlateOrm.PlanRanges
import SlateOrm.Visits

namespace SlateOrm

open List Keys

/-!
# What a path collects

In a consistent store every key that an access path reads is that of a stored
row, or of an entry of one.  So the walk over the path makes of each what the
query makes of the row, does not fail, and comes to every row that is answered
once.
-/

/-! ## Cursors -/

namespace Cursor

variable {α β γ δ : Type}

theorem collect_ofList
    {make : α → Except KernelError (Option β)} {project : β → γ}
    {answer : δ → Option γ} {values : List α} {others : List δ}
    (beside : List.Forall₂ (fun value other =>
      ∃ made, make value = .ok made ∧ made.map project = answer other)
      values others) :
    ∃ items, (ofList make values).collect = .ok items ∧
      items.map project = others.filterMap answer := by
  induction beside with
  | nil => exact ⟨[], rfl, rfl⟩
  | cons answers _ ih =>
      obtain ⟨made, isMade, isAnswer⟩ := answers
      obtain ⟨items, collected, areAnswers⟩ := ih
      cases made with
      | none =>
          refine ⟨items, ?_, ?_⟩
          · rw [ofList, isMade]
            exact collected
          · rw [filterMap_cons, ← isAnswer]
            exact areAnswers
      | some item =>
          refine ⟨item :: items, ?_, ?_⟩
          · rw [ofList, isMade]
            dsimp only
            rw [collect, collected]
            rfl
          · rw [filterMap_cons, ← isAnswer, map_cons, areAnswers]
            rfl

/-- Results that are made of every element are made one by one. -/
theorem collect_ofList_map_some
    {make : α → Except KernelError β} {values : List α} {items : List β} :
    (ofList (fun value => (make value).map some) values).collect = .ok items ↔
      List.Forall₂ (fun value item => make value = .ok item) values
        items := by
  induction values generalizing items with
  | nil =>
      rw [forall₂_nil_left_iff]
      exact ⟨fun collected => by cases collected; rfl,
        fun isEmpty => isEmpty ▸ rfl⟩
  | cons value rest ih =>
      rw [ofList]
      cases isMade : make value with
      | error refusal =>
          refine ⟨by rintro ⟨⟩, fun beside => ?_⟩
          cases beside with
          | cons made _ =>
              rw [isMade] at made
              cases made
      | ok item =>
          rw [forall₂_cons_left_iff]
          change (ofList _ rest).collect.bind _ = _ ↔ _
          constructor
          · intro collected
            obtain ⟨others, isRest, isItems⟩ := bind_eq_ok.mp collected
            cases isItems
            exact ⟨item, others, isMade, ih.mp isRest, rfl⟩
          · rintro ⟨other, others, made, beside, rfl⟩
            cases isMade.symm.trans made
            exact bind_eq_ok.mpr ⟨others, ih.mpr beside, rfl⟩

end Cursor

/-! ## Scans -/

/-- What a scan finds, in the order it is asked for. -/
def ScanOrder.arrange {α : Type} (order : ScanOrder) (values : List α) : List α :=
  match order with
  | .ascending => values
  | .descending => values.reverse

theorem ScanOrder.perm_arrange
    {α : Type} (order : ScanOrder) (values : List α) :
    (order.arrange values).Perm values := by
  cases order with
  | ascending => exact List.Perm.refl _
  | descending => exact reverse_perm values

theorem scan_eq_arrange
    (snapshot : Snapshot) (range : KeyRange) (order : ScanOrder) :
    snapshot.scan range order = order.arrange (snapshot.scan range .ascending) := by
  rw [MemoryStore.Transaction.scan_eq, MemoryStore.Transaction.scan_eq]
  cases order <;> rfl

theorem scan_eq_filter
    (snapshot : Snapshot) {range whole : KeyRange}
    (within : ∀ key, range.contains key = true → whole.contains key = true) :
    snapshot.scan range .ascending = (snapshot.scan whole .ascending).filter
        (fun entry => range.contains entry.key) := by
  rw [MemoryStore.Transaction.scan_eq, MemoryStore.Transaction.scan_eq]
  simp only [MemoryStore.entriesIn]
  rw [filter_map, filter_filter]
  congr 1
  refine filter_congr (fun entry _ => ?_)
  rw [Bool.eq_iff_iff, Bool.and_eq_true]
  exact ⟨fun contained => ⟨contained, within _ contained⟩, And.left⟩

theorem pairwise_scan
    (snapshot : Snapshot) (range : KeyRange) :
    (snapshot.scan range .ascending).Pairwise
      (fun first second => compare first.key second.key = .lt) := by
  rw [MemoryStore.Transaction.scan_eq]
  simp only [MemoryStore.entriesIn]
  rw [pairwise_map]
  exact Std.ExtTreeMap.ordered_keys_toList.filter _

theorem pairwise_scan_ne
    (snapshot : Snapshot) (range : KeyRange) (order : ScanOrder) :
    (snapshot.scan range order).Pairwise
      (fun first second => first.key ≠ second.key) := by
  have ascending : (snapshot.scan range .ascending).Pairwise
      (fun first second => first.key ≠ second.key) := by
    refine (pairwise_scan snapshot range).imp (fun {first second} less equal => ?_)
    have same : compare first.key second.key = .eq :=
      Std.LawfulEqOrd.compare_eq_iff_eq.mpr equal
    rw [same] at less
    cases less
  rw [scan_eq_arrange]
  cases order with
  | ascending => exact ascending
  | descending => exact pairwise_reverse.mpr (ascending.imp Ne.symm)

section

variable [Platform]

/-! ## Fetching -/

section

variable
  {snapshot : Snapshot}
  {shape : RowShape}
  {index : IndexDef}

variable {entries : List KeyValue} {targets : List (List Value)}

omit [Platform] in
theorem prefetchEntries_eq
    (fetched : List.Forall₂ (fun entry target =>
      entryTarget shape index entry = .ok target) entries targets) :
    prefetchEntries shape index entries = .ok targets := by
  induction fetched with
  | nil => rfl
  | cons isTarget _ ih =>
      exact bind_eq_ok.mpr ⟨_, isTarget, bind_eq_ok.mpr ⟨_, ih, rfl⟩⟩

theorem drainIndex_eq
    {queue : List (List Value)}
    (fetched : List.Forall₂ (fun entry target =>
      entryTarget shape index entry = .ok target) entries targets)
    (ready : queue = [] → entries = []) :
    drainIndex snapshot shape index entries queue =
      Cursor.ofList (materialiseFetched snapshot shape index) (queue ++ targets) := by
  induction fetched generalizing queue with
  | nil => rw [drainIndex, append_nil]
  | cons isTarget _ ih =>
      cases queue with
      | nil => exact absurd (ready rfl) (cons_ne_nil _ _)
      | cons target queue =>
          rename_i fetchedKey rest keys _
          have next : drainIndex snapshot shape index rest (queue ++ [fetchedKey]) =
                Cursor.ofList (materialiseFetched snapshot shape index)
                  (queue ++ [fetchedKey] ++ keys) :=
            ih (fun isEmpty => absurd isEmpty (by simp))
          rw [append_assoc, singleton_append] at next
          rw [drainIndex, cons_append, Cursor.ofList, isTarget]
          dsimp only
          rw [next]
          cases materialiseFetched snapshot shape index target with
          | error error => rfl
          | ok row => cases row <;> rfl

theorem indexCursor_eq
    (fetched : List.Forall₂ (fun entry target =>
      entryTarget shape index entry = .ok target) entries targets) :
    indexCursor snapshot shape index entries =
      Cursor.ofList (materialiseFetched snapshot shape index) targets := by
  have first := forall₂_take DEFAULT_PREFETCH fetched
  have later := forall₂_drop DEFAULT_PREFETCH fetched
  rw [indexCursor, prefetchEntries_eq first]
  dsimp only
  rw [drainIndex_eq later, take_append_drop]
  intro isEmpty
  have none : targets = [] := by
    cases targets with
    | nil => rfl
    | cons target rest => cases isEmpty
  rw [none] at fetched
  cases fetched
  rfl

end

/-! ## Stored rows -/

omit [Platform] in
theorem Catalog.WellFormed.index_eq_some
    {catalog : Catalog}
    (wellFormed : catalog.WellFormed)
    {table : TableDef}
    (inCatalog : table ∈ catalog.tables)
    {index : IndexDef}
    (inIndexes : index ∈ table.indexes) :
    table.index index.id = some index := by
  cases isFound : table.index index.id with
  | none =>
      rw [TableDef.index, find?_eq_none] at isFound
      exact absurd (beq_self_eq_true index.id) (isFound index inIndexes)
  | some other =>
      obtain ⟨inIndexes', sameId⟩ := mem_of_index isFound
      obtain ⟨-, rfl⟩ := wellFormed.index_unique inCatalog inCatalog
        inIndexes' inIndexes sameId
      rfl

theorem Expr.admits_of_same
    (predicate : Expr) {first second : Row} (same : first.Same second) :
    predicate.admits first = predicate.admits second := by
  rw [Expr.admits, Expr.admits, Expr.evaluate, Expr.evaluate,
    Expr.evaluateOver_congr same.sameColumns]

section

variable {catalog : Catalog}

/-- A row as it is stored. -/
def CatalogRow.entry (record : CatalogRow catalog) : KeyValue :=
  ⟨record.key, record.body⟩

/-- What a query makes of a stored row, up to equality. -/
def RowShape.answerTo (shape : RowShape) (record : CatalogRow catalog) :
    Option (List Value) :=
  (shape.answer record.row).map Row.canonical

/-- A row that a store keeps of a table. -/
structure CatalogRow.StoredIn (record : CatalogRow catalog)
    (snapshot : Snapshot) (table : TableDef) : Prop where
  ofTable : record.table = table
  held : snapshot.get record.key = some record.body

/-- The stored rows of a table, in the order of their keys. -/
structure Enumerates (snapshot : Snapshot) (table : TableDef)
    (records : List (CatalogRow catalog)) : Prop where
  scanned : snapshot.scan (KeyRange.ofPrefix (Keys.tablePrefix table))
    .ascending = records.map CatalogRow.entry
  ofTable : ∀ record ∈ records, record.table = table

variable
  {snapshot : Snapshot}
  {table : TableDef}

theorem CatalogRow.tablePrefix_isPrefix
    {record : CatalogRow catalog}
    (ofTable : record.table = table) :
    tablePrefix table <+: record.key := by
  rw [← ofTable]
  exact prefix_append _ _

namespace Enumerates

variable
  {records : List (CatalogRow catalog)}
  (enumerates : Enumerates snapshot table records)

include enumerates

theorem storedIn :
    ∀ record ∈ records, record.StoredIn snapshot table := by
  intro record member
  have scanned : record.entry ∈ snapshot.scan
      (KeyRange.ofPrefix (tablePrefix table)) .ascending := by
    rw [enumerates.scanned]
    exact mem_map_of_mem member
  exact ⟨enumerates.ofTable record member, (mem_scan.mp scanned).2⟩

theorem pairwise_key :
    records.Pairwise (fun record other => record.key ≠ other.key) := by
  have scanned := pairwise_scan_ne snapshot
    (KeyRange.ofPrefix (tablePrefix table)) .ascending
  rw [enumerates.scanned, pairwise_map] at scanned
  exact scanned

theorem pairwise_arrange
    (order : ScanOrder) :
    (order.arrange records).Pairwise (fun record other => record.key ≠ other.key) :=
  ((order.perm_arrange records).pairwise_iff Ne.symm).mpr enumerates.pairwise_key

theorem exists_of_storedIn
    {record : CatalogRow catalog} (stored : record.StoredIn snapshot table) :
    ∃ other ∈ records, other.key = record.key := by
  have scanned : record.entry ∈ snapshot.scan
      (KeyRange.ofPrefix (tablePrefix table)) .ascending := by
    refine mem_scan.mpr ⟨?_, stored.held⟩
    rw [KeyRange.contains_ofPrefix]
    exact CatalogRow.tablePrefix_isPrefix stored.ofTable
  rw [enumerates.scanned, mem_map] at scanned
  obtain ⟨other, member, same⟩ := scanned
  exact ⟨other, member, congrArg KeyValue.key same⟩

end Enumerates

theorem storedIn_of_stored
    {wellFormed : catalog.WellFormed}
    {record : CatalogRow catalog}
    (stored : (catalog.layout wellFormed).Stored (catalog.view snapshot.get) record)
    (ofTable : record.table = table) :
    record.StoredIn snapshot table := by
  refine ⟨ofTable, ?_⟩
  have owns := Catalog.owns_rowKey record.inCatalog
    (record.row.primaryKeyValues record.table)
  have viewed := Catalog.view_of_owns owns snapshot.get
  exact viewed.symm.trans stored

theorem exists_enumerates
    {wellFormed : catalog.WellFormed}
    (consistent : (catalog.layout wellFormed).Consistent (catalog.view snapshot.get))
    (inCatalog : table ∈ catalog.tables) :
    ∃ records : List (CatalogRow catalog), Enumerates snapshot table records := by
  have each : ∀ entry ∈ snapshot.scan
      (KeyRange.ofPrefix (tablePrefix table)) .ascending,
      ∃ record : CatalogRow catalog, record.table = table ∧ entry = record.entry := by
    intro entry member
    obtain ⟨begins, found⟩ := mem_scan.mp member
    rw [KeyRange.contains_ofPrefix] at begins
    obtain ⟨record, -, isTable, isKey, isBody⟩ :=
      exists_record_of_tablePrefix consistent.comprises inCatalog begins found
    refine ⟨record, isTable, ?_⟩
    rw [CatalogRow.entry, isKey, isBody]
  obtain ⟨records, beside⟩ := exists_forall₂ each
  refine ⟨records, ?_, fun record member => ?_⟩
  · have equal : List.Forall₂ Eq (snapshot.scan
        (KeyRange.ofPrefix (tablePrefix table)) .ascending)
        (records.map CatalogRow.entry) := by
      rw [forall₂_map_right_iff]
      exact beside.imp (fun _ _ both => both.2)
    rwa [forall₂_eq_eq_eq] at equal
  · obtain ⟨entry, -, isTable, -⟩ := exists_beside_right beside record member
    exact isTable

theorem CatalogRow.StoredIn.same_of_key
    (wellFormed : catalog.WellFormed)
    {first second : CatalogRow catalog} (stored : first.StoredIn snapshot table)
    (stored' : second.StoredIn snapshot table)
    (sameKey : first.key = second.key) :
    first.row.Same second.row := by
  have sameBody : first.body = second.body := by
    refine Option.some.inj ?_
    rw [← stored.held, ← stored'.held, sameKey]
  exact CatalogRow.same_of_body wellFormed sameKey sameBody

/-- Rows that are come to, those that are answered once. -/
structure Visits (shape : RowShape) (snapshot : Snapshot)
    (visited : List (CatalogRow catalog)) : Prop where
  storedIn : ∀ record ∈ visited, record.StoredIn snapshot shape.table
  once : visited.Pairwise (fun record other =>
    (shape.answerTo record).isSome → record.key ≠ other.key)

/-! ## Paths over rows -/

theorem exists_decodeRowKey
    (wellFormed : catalog.WellFormed)
    (record : CatalogRow catalog) :
    ∃ primaryKey, decodeRowKey record.table record.key = .ok primaryKey ∧
      primaryKey.map Value.canonical =
        (record.row.primaryKeyValues record.table).map Value.canonical := by
  have tableWellFormed := wellFormed.tables _ record.inCatalog
  have typed := typedAs_primaryKeyValues tableWellFormed record.valid
  have keyable := typed.isKeyable tableWellFormed
  have flat := typed.typed
    (fun value member => Value.flat_of_isKeyable (keyable value member))
  have headerLength := length_header ROW_SPACE record.table.id
  have decoded : decodeRowKey record.table record.key =
      .ok ((record.row.primaryKeyValues record.table).map Value.decoded) := by
    rw [decodeRowKey, CatalogRow.key, rowKey, tablePrefix,
      if_neg (by rw [length_append, headerLength]; omega),
      ← headerLength, drop_left]
    exact liftTuple_eq_ok.mpr (decode_encode flat)
  exact ⟨_, decoded, canonical_of_decodeRowKey record.fits decoded⟩

section

variable
  (wellFormed : catalog.WellFormed)
  {shape : RowShape}
  (sound : shape.Sound)
  (current : ∀ record : CatalogRow catalog,
    record.StoredIn snapshot shape.table → shape.table.Current)

include wellFormed sound current

theorem materialise_storedIn
    {record : CatalogRow catalog}
    (stored : record.StoredIn snapshot shape.table) {primaryKey : List Value}
    (sameKey : primaryKey.map Value.canonical =
      (record.row.primaryKeyValues shape.table).map Value.canonical) :
    ∃ made, materialise shape ⟨primaryKey, record.body⟩ = .ok made ∧
      made.map Row.canonical = shape.answerTo record := by
  have isCurrent := current record stored
  obtain ⟨table, row, inCatalog, valid, fits⟩ := record
  obtain rfl : table = shape.table := stored.ofTable
  exact RowShape.materialise_encodeBody sound (wellFormed.tables _ inCatalog)
    isCurrent valid fits sameKey

variable
  {records : List (CatalogRow catalog)}
  (enumerates : Enumerates snapshot shape.table records)

include enumerates

/-- A path over rows comes to those of its range, in the order asked for. -/
theorem collect_tableScan
    {range : KeyRange}
    (within : ∀ key, range.contains key = true → tablePrefix shape.table <+: key)
    (order : ScanOrder) :
    ∃ rows visited, (source snapshot shape order (.tableScan range)).collect =
        .ok rows ∧
      rows.map Row.canonical = visited.filterMap shape.answerTo ∧
      Visits shape snapshot visited ∧
      visited.Sublist (order.arrange records) ∧
      ∀ record ∈ records, range.contains record.key = true → record ∈ visited := by
  have isSublist : (order.arrange (records.filter
      (fun record => range.contains record.key))).Sublist (order.arrange records) := by
    cases order with
    | ascending => exact filter_sublist
    | descending => exact filter_sublist.reverse
  have scanned : snapshot.scan range order = (order.arrange (records.filter
        (fun record => range.contains record.key))).map CatalogRow.entry := by
    rw [scan_eq_arrange, scan_eq_filter snapshot (fun key contained =>
      (KeyRange.contains_ofPrefix _ _).mpr (within key contained)),
      enumerates.scanned, filter_map]
    cases order with
    | ascending => rfl
    | descending => exact map_reverse.symm
  have storedIn : ∀ record ∈ order.arrange (records.filter
      (fun record => range.contains record.key)),
        record.StoredIn snapshot shape.table :=
    fun record member => enumerates.storedIn record
      ((order.perm_arrange _).mem_iff.mp (isSublist.subset member))
  have beside : List.Forall₂ (fun entry record =>
      ∃ made, materialiseStored shape entry = .ok made ∧
        made.map Row.canonical = shape.answerTo record)
      (snapshot.scan range order)
      (order.arrange (records.filter (fun record => range.contains record.key))) := by
    rw [scanned, forall₂_map_left_iff, forall₂_same]
    intro record member
    have stored := storedIn record member
    obtain ⟨primaryKey, decoded, sameKey⟩ := exists_decodeRowKey wellFormed record
    rw [stored.ofTable] at decoded sameKey
    obtain ⟨made, isMade, isAnswer⟩ :=
      materialise_storedIn wellFormed sound current stored sameKey
    exact ⟨made, bind_eq_ok.mpr ⟨primaryKey, decoded, isMade⟩, isAnswer⟩
  obtain ⟨rows, collected, areAnswers⟩ := Cursor.collect_ofList beside
  refine ⟨rows, _, collected, areAnswers, ⟨storedIn, ?_⟩, isSublist, ?_⟩
  · refine ((enumerates.pairwise_arrange order).sublist isSublist).imp
      (fun {record other} differ => ?_)
    exact fun _ => differ
  · intro record member contained
    exact (order.perm_arrange _).mem_iff.mpr (mem_filter.mpr ⟨member, contained⟩)

/-! ## Paths over single rows -/

section

variable
  (inCatalog : shape.table ∈ catalog.tables)
  (consistent : (catalog.layout wellFormed).Consistent (catalog.view snapshot.get))

include inCatalog consistent

/-- The path over one row collects it, if it is answered. -/
theorem collect_pointGet
    (key : List Value) (order : ScanOrder) :
    ∃ (rows : List Row) (visited : List (CatalogRow catalog)),
      (source snapshot shape order (.pointGet key)).collect = .ok rows ∧
      rows.map Row.canonical = visited.filterMap shape.answerTo ∧
      Visits shape snapshot visited ∧ visited.length ≤ 1 ∧
      ∀ record ∈ records, rowKey shape.table key = record.key →
        ∃ other ∈ visited, other.key = record.key := by
  rw [source]
  cases found : snapshot.get (rowKey shape.table key) with
  | none =>
      refine ⟨[], [], ?_, rfl, ⟨by simp, .nil⟩, Nat.zero_le _, ?_⟩
      · rw [pointSource, readRowBody, found]
        rfl
      · intro record member isReached
        have held := (enumerates.storedIn record member).held
        rw [← isReached, found] at held
        cases held
  | some body =>
      obtain ⟨record, stored, isTable, isKey, rfl⟩ :=
        exists_record_of_rowKey consistent.comprises inCatalog found
      have storedIn := storedIn_of_stored stored isTable
      have sameKey := canonical_of_rowKey wellFormed (isTable.symm ▸ isKey)
      obtain ⟨rows, collected, areAnswers⟩ : ∃ rows,
          (pointSource snapshot shape key).collect = .ok rows ∧
            rows.map Row.canonical = (shape.answerTo record).toList := by
        have isCurrent := current record storedIn
        obtain ⟨table, row, inTables, valid, fits⟩ := record
        obtain rfl : table = shape.table := isTable
        exact RowShape.collect_pointSource sound (wellFormed.tables _ inCatalog)
          isCurrent valid fits sameKey found
      refine ⟨rows, [record], collected, ?_, ⟨?_, pairwise_singleton _ _⟩,
        Nat.le_refl _, ?_⟩
      · rw [areAnswers, filterMap_cons, filterMap_nil]
        cases shape.answerTo record <;> rfl
      · intro other member
        rw [mem_singleton.mp member]
        exact storedIn
      · intro other _ isReached
        exact ⟨record, mem_singleton.mpr rfl, isKey.trans isReached⟩

/-- The path over single rows collects those that are there and are answered. -/
theorem collect_pointGets
    {keys : List (List Value)}
    (once : ∀ record : CatalogRow catalog, record.StoredIn snapshot shape.table →
      (shape.answerTo record).isSome → keys.Pairwise (fun key other =>
          key.map Value.canonical ≠ other.map Value.canonical))
    (order : ScanOrder) :
    ∃ (rows : List Row) (visited : List (CatalogRow catalog)),
      (source snapshot shape order (.pointGets keys)).collect = .ok rows ∧
      rows.map Row.canonical = visited.filterMap shape.answerTo ∧
      Visits shape snapshot visited ∧
      (visited.map CatalogRow.key).Sublist (keys.map (rowKey shape.table)) ∧
      ∀ record ∈ records, (∃ key ∈ keys, rowKey shape.table key = record.key) →
          ∃ other ∈ visited, other.key = record.key := by
  let Found (key : List Value) (found : Option (CatalogRow catalog)) : Prop :=
    (found = none → snapshot.get (rowKey shape.table key) = none) ∧
      ∀ record ∈ found, record.StoredIn snapshot shape.table ∧
        record.key = rowKey shape.table key
  have each : ∀ key ∈ keys, ∃ found, Found key found := by
    intro key _
    cases held : snapshot.get (rowKey shape.table key) with
    | none => exact ⟨none, fun _ => held, nofun⟩
    | some body =>
        obtain ⟨record, stored, isTable, isKey, rfl⟩ :=
          exists_record_of_rowKey consistent.comprises inCatalog held
        refine ⟨some record, nofun, fun other isRecord => ?_⟩
        obtain rfl := Option.mem_some.mp isRecord
        exact ⟨storedIn_of_stored stored isTable, isKey⟩
  obtain ⟨options, beside⟩ := exists_forall₂ each
  have makes : List.Forall₂ (fun key found =>
      ∃ made, materialisePoint snapshot shape key = .ok made ∧
        made.map Row.canonical = found.bind shape.answerTo) keys options := by
    refine beside.imp (fun key found isFound => ?_)
    rw [materialisePoint, readRowBody]
    cases found with
    | none =>
        rw [isFound.1 rfl]
        exact ⟨none, rfl, rfl⟩
    | some record =>
        obtain ⟨stored, isKey⟩ := isFound.2 record rfl
        rw [← isKey, stored.held]
        refine materialise_storedIn wellFormed sound current stored ?_
        rw [← stored.ofTable] at isKey ⊢
        exact canonical_of_rowKey wellFormed isKey
  obtain ⟨rows, collected, areAnswers⟩ := Cursor.collect_ofList makes
  have storedIn : ∀ record ∈ options.filterMap id,
      record.StoredIn snapshot shape.table := by
    intro record member
    obtain ⟨found, inOptions, isRecord⟩ := mem_filterMap.mp member
    obtain ⟨key, -, isFound⟩ := exists_beside_right beside found inOptions
    exact (isFound.2 record isRecord).1
  refine ⟨rows, options.filterMap id, collected, ?_, ⟨storedIn, ?_⟩, ?_, ?_⟩
  · rw [areAnswers, filterMap_filterMap]
    rfl
  · by_cases anyAnswered : ∃ record ∈ options.filterMap id,
        (shape.answerTo record).isSome = true
    · obtain ⟨answered, member, isAnswered⟩ := anyAnswered
      rw [pairwise_filterMap]
      refine pairwise_of_forall₂ ?_ beside
        (once answered (storedIn answered member) isAnswered)
      rintro key key' found found' differ isFound isFound' record isRecord
        other isOther - sameKey
      obtain ⟨stored, isKey⟩ := isFound.2 record isRecord
      obtain ⟨-, isKey'⟩ := isFound'.2 other isOther
      rw [← sameKey] at isKey'
      rw [← stored.ofTable] at isKey isKey'
      exact differ ((canonical_of_rowKey wellFormed isKey).trans
        (canonical_of_rowKey wellFormed isKey').symm)
    · exact pairwise_of_forall_mem_list (fun record member _ _ isAnswered =>
        absurd ⟨record, member, isAnswered⟩ anyAnswered)
  · exact sublist_map_of_found (beside.imp (fun key found isFound =>
      fun record isRecord => (isFound.2 record isRecord).2))
  · rintro record member ⟨key, inKeys, isKey⟩
    obtain ⟨found, inOptions, isFound⟩ := exists_beside_left beside key inKeys
    cases found with
    | none =>
        have held := (enumerates.storedIn record member).held
        rw [← isKey, isFound.1 rfl] at held
        cases held
    | some other =>
        exact ⟨other, mem_filterMap.mpr ⟨some other, inOptions, rfl⟩,
          (isFound.2 other rfl).2.trans isKey⟩

end

end

/-! ## Paths over indexes -/

/-- An entry of a stored row. -/
structure EntryOf (snapshot : Snapshot) (table : TableDef)
    (index : IndexDef) (found : KeyValue) (record : CatalogRow catalog) :
    Prop where
  storedIn : record.StoredIn snapshot table
  entry : ∃ entry ∈ admittedEntries table index record.row,
    found = ⟨entry.key, entry.value⟩

theorem CatalogRow.StoredIn.stored
    (wellFormed : catalog.WellFormed)
    {record : CatalogRow catalog} (storedIn : record.StoredIn snapshot table) :
    (catalog.layout wellFormed).Stored (catalog.view snapshot.get) record := by
  have owns := Catalog.owns_rowKey record.inCatalog
    (record.row.primaryKeyValues record.table)
  exact (Catalog.view_of_owns owns snapshot.get).trans storedIn.held

variable {index : IndexDef}

theorem get_of_mem_admittedEntries
    {wellFormed : catalog.WellFormed}
    (consistent : (catalog.layout wellFormed).Consistent (catalog.view snapshot.get))
    {record : CatalogRow catalog} (storedIn : record.StoredIn snapshot table)
    (inIndexes : index ∈ table.indexes)
    {entry : IndexEntry}
    (inEntries : entry ∈ admittedEntries table index record.row) :
    snapshot.get entry.key = some entry.value := by
  obtain rfl := storedIn.ofTable
  have viewed : catalog.view snapshot.get entry.key = some entry.value :=
    consistent.lookup (storedIn.stored wellFormed)
      (Or.inr ⟨index, inIndexes, entry, inEntries, rfl, rfl⟩)
  have owns := Catalog.owns_of_ofIndex record.inCatalog inIndexes
    (ofIndex_of_mem_admittedEntries inEntries)
  exact (Catalog.view_of_owns owns snapshot.get).symm.trans viewed

section

variable
  (wellFormed : catalog.WellFormed)
  {shape : RowShape}

include wellFormed

/-- Ranges of an index hold entries of different rows, as far as answered. -/
theorem pairwise_entries
    (inIndexes : index ∈ shape.table.indexes)
    {ranges : List KeyRange} {order : ScanOrder}
    (once : ∀ record : CatalogRow catalog, record.StoredIn snapshot shape.table →
      (shape.answerTo record).isSome →
        EntersOnce shape.table record.row index.id ranges) :
    (ranges.flatMap (fun range => snapshot.scan range order)).Pairwise
      (fun entry other => ∀ record record' : CatalogRow catalog,
        EntryOf snapshot shape.table index entry record →
        EntryOf snapshot shape.table index other record' →
        (shape.answerTo record).isSome → record.key ≠ record'.key) := by
  -- Rows under one key are equal, and have the same entries.
  have sameEntries : ∀ record record' : CatalogRow catalog,
      record.StoredIn snapshot shape.table →
      record'.StoredIn snapshot shape.table → record.key = record'.key →
      admittedEntries shape.table index record'.row =
        admittedEntries shape.table index record.row := by
    intro record record' stored stored' sameKey
    have sameBody : record.body = record'.body := by
      refine Option.some.inj ?_
      rw [← stored.held, ← stored'.held, sameKey]
    exact ((CatalogRow.same_of_body wellFormed sameKey
      sameBody).admittedEntries shape.table index).symm
  rw [pairwise_flatMap]
  constructor
  · intro range inRanges
    refine (pairwise_scan_ne snapshot range order).imp_of_mem ?_
    intro found found' member member' differ record record' isEntry isEntry'
      isAnswered sameKey
    obtain ⟨entry, inEntries, rfl⟩ := isEntry.entry
    obtain ⟨entry', inEntries', rfl⟩ := isEntry'.entry
    rw [sameEntries record record' isEntry.storedIn isEntry'.storedIn sameKey]
      at inEntries'
    exact differ ((once record isEntry.storedIn isAnswered).entry index inIndexes rfl
      entry inEntries entry' inEntries' ⟨range, inRanges, (mem_scan.mp member).1⟩
      ⟨range, inRanges, (mem_scan.mp member').1⟩)
  · rw [pairwise_iff_forall_sublist]
    intro range other both found member found' member' record record' isEntry
      isEntry' isAnswered sameKey
    obtain ⟨entry, inEntries, rfl⟩ := isEntry.entry
    obtain ⟨entry', inEntries', rfl⟩ := isEntry'.entry
    rw [sameEntries record record' isEntry.storedIn isEntry'.storedIn sameKey]
      at inEntries'
    have enters := once record isEntry.storedIn isAnswered
    have inRanges : range ∈ ranges := both.subset (mem_cons_self ..)
    have inRanges' : other ∈ ranges :=
      both.subset (mem_cons_of_mem _ (mem_cons_self ..))
    have contained := (mem_scan.mp member).1
    have contained' := (mem_scan.mp member').1
    have sameEntry : entry.key = entry'.key := enters.entry index inIndexes
      rfl entry inEntries entry' inEntries' ⟨range, inRanges, contained⟩
      ⟨other, inRanges', contained'⟩
    have apart := pairwise_iff_forall_sublist.mp
      (enters.range index inIndexes rfl entry inEntries) both
    exact apart ⟨contained, sameEntry ▸ contained'⟩

theorem materialiseFetched_entry
    (sound : shape.Sound)
    (current : ∀ record : CatalogRow catalog,
      record.StoredIn snapshot shape.table → shape.table.Current)
    (inIndexes : index ∈ shape.table.indexes)
    {found : KeyValue} {record : CatalogRow catalog}
    (flat : ∀ value ∈ index.keyValues record.row, value.flat = true)
    (isEntry : EntryOf snapshot shape.table index found record) :
    ∃ target, entryTarget shape index found = .ok target ∧
      ∃ made, materialiseFetched snapshot shape index target = .ok made ∧
        made.map Row.canonical = shape.answerTo record := by
  obtain ⟨stored, entry, inEntries, rfl⟩ := isEntry
  have decodes : ∃ values ∈ index.keySets record.row, ∃ primaryKey,
      decodeIndexEntry shape.table index entry.key entry.value =
          .ok (values.map Value.decoded, primaryKey) ∧
        primaryKey.map Value.canonical =
          (record.row.primaryKeyValues shape.table).map Value.canonical := by
    rw [← stored.ofTable] at inEntries inIndexes ⊢
    exact decodeIndexEntry_of_entry wellFormed record flat inIndexes inEntries
  obtain ⟨_, -, primaryKey, decoded, sameKey⟩ := decodes
  have isKey : rowKey shape.table primaryKey = record.key := by
    rw [CatalogRow.key, stored.ofTable]
    exact rowKey_eq_of_canonical sameKey
  refine ⟨primaryKey, bind_eq_ok.mpr ⟨_, decoded, rfl⟩, ?_⟩
  rw [materialiseFetched, readRowBody, isKey, stored.held]
  exact materialise_storedIn wellFormed sound current stored sameKey

/-- The path over an index collects the rows that are answered. -/
theorem collect_indexSource
    (sound : shape.Sound)
    {covering : Bool}
    (current : covering = false → ∀ record : CatalogRow catalog,
      record.StoredIn snapshot shape.table → shape.table.Current)
    {records : List (CatalogRow catalog)}
    (enumerates : Enumerates snapshot shape.table records)
    (inCatalog : shape.table ∈ catalog.tables)
    (consistent : (catalog.layout wellFormed).Consistent (catalog.view snapshot.get))
    (inIndexes : index ∈ shape.table.indexes)
    (isRead : index.text = true ∨ index.expression = none ∨
      (expressionPosition index shape.compute).isSome = true)
    {ranges : List KeyRange}
    (serves : ∀ record : CatalogRow catalog, record.StoredIn snapshot shape.table →
      EntryWithin shape.table record.row index.id ranges →
        index.Serves shape.compute record.row covering)
    (covered : covering = true → shape.CoveredBy index)
    (within : ∀ range ∈ ranges, ∀ key, range.contains key = true → OfIndex index.id key)
    (once : ∀ record : CatalogRow catalog, record.StoredIn snapshot shape.table →
      (shape.answerTo record).isSome →
        EntersOnce shape.table record.row index.id ranges)
    (order : ScanOrder) :
    ∃ (rows : List Row) (visited : List (CatalogRow catalog)),
      (indexSource snapshot shape index.id ranges covering order).collect = .ok rows ∧
      rows.map Row.canonical = visited.filterMap shape.answerTo ∧
      Visits shape snapshot visited ∧
      List.Forall₂ (EntryOf snapshot shape.table index)
        (ranges.flatMap (fun range => snapshot.scan range order)) visited ∧
      ∀ record ∈ records, EntryWithin shape.table record.row index.id ranges →
        ∃ other ∈ visited, other.key = record.key := by
  have found := wellFormed.index_eq_some inCatalog inIndexes
  have each : ∀ entry ∈ ranges.flatMap (fun range => snapshot.scan range order),
      ∃ record : CatalogRow catalog, EntryOf snapshot shape.table index entry record ∧
          index.Serves shape.compute record.row covering := by
    intro entry member
    obtain ⟨range, inRanges, scanned⟩ := mem_flatMap.mp member
    obtain ⟨contained, held⟩ := mem_scan.mp scanned
    obtain ⟨record, stored, isTable, made, inEntries, isKey, isValue⟩ :=
      exists_record_of_ofIndex consistent.comprises inCatalog inIndexes
        (within range inRanges entry.key contained) held
    have storedIn := storedIn_of_stored stored isTable
    refine ⟨record, ⟨storedIn, made, inEntries, ?_⟩, serves record storedIn
      ⟨index, inIndexes, rfl, made, inEntries, range, inRanges, ?_⟩⟩
    · rw [isKey, isValue]
    · rwa [isKey]
  obtain ⟨visited, served⟩ := exists_forall₂ each
  have beside := served.imp (fun _ _ both => both.1)
  have collects : ∃ rows, (indexSource snapshot shape index.id ranges covering
      order).collect = .ok rows ∧
        rows.map Row.canonical = visited.filterMap shape.answerTo := by
    rw [indexSource, found]
    dsimp only
    cases covering with
    | true =>
        refine Cursor.collect_ofList (served.imp ?_)
        rintro entry record ⟨⟨stored, made, inEntries, rfl⟩, serves⟩
        exact RowShape.materialiseEntry_entry wellFormed record stored.ofTable
          sound (covered rfl) (isRead.resolve_left (by simp [(covered
          rfl).plain])) (serves.computed rfl) inIndexes inEntries
    | false =>
        obtain ⟨targets, fetched, makes⟩ := exists_forall₂_between
          (fun entry record both => materialiseFetched_entry wellFormed
            sound (current rfl) inIndexes both.2.flat both.1) served
        rw [if_neg (by decide), indexCursor_eq fetched]
        exact Cursor.collect_ofList makes
  obtain ⟨rows, collected, areAnswers⟩ := collects
  refine ⟨rows, visited, collected, areAnswers, ⟨?_, ?_⟩, beside, ?_⟩
  · intro record member
    obtain ⟨entry, -, isEntry⟩ := exists_beside_right beside record member
    exact isEntry.storedIn
  · refine pairwise_of_forall₂ ?_ beside (pairwise_entries wellFormed inIndexes once)
    intro entry other record record' apart isEntry isEntry' isAnswered
    exact apart record record' isEntry isEntry' isAnswered
  · intro record member isReached
    obtain ⟨other, inIndexes', sameId, entry, inEntries, range, inRanges,
      contained⟩ := isReached
    obtain ⟨-, rfl⟩ := wellFormed.index_unique inCatalog inCatalog
      inIndexes' inIndexes sameId
    have stored := enumerates.storedIn record member
    have held := get_of_mem_admittedEntries consistent stored inIndexes inEntries
    obtain ⟨record', inVisited, isEntry⟩ := exists_beside_left beside
      ⟨entry.key, entry.value⟩ (mem_flatMap.mpr
        ⟨range, inRanges, mem_scan.mpr ⟨contained, held⟩⟩)
    obtain ⟨entry', inEntries', same⟩ := isEntry.entry
    refine ⟨record', inVisited, CatalogRow.key_of_indexed wellFormed
      ⟨other, ?_, entry', ?_, (congrArg KeyValue.key same).symm,
      (congrArg KeyValue.value same).symm⟩ ⟨other, ?_, entry, ?_, rfl, rfl⟩⟩
    · rw [isEntry.storedIn.ofTable]
      exact inIndexes
    · rw [isEntry.storedIn.ofTable]
      exact inEntries'
    · rw [stored.ofTable]
      exact inIndexes
    · rw [stored.ofTable]
      exact inEntries

end

end

end

end SlateOrm
