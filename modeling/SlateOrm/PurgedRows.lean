import SlateOrm.ReplacedRows
import SlateOrm.SoftDelete

namespace SlateOrm

open List RecordTransaction Keys Write

/-!
# What a purge erases

A purge erases the rows that its caller reads, with the entries that it works
out from them.  It reads them as its caller sees them, under the filter of a
read, while the row and its entries are stored under what the row holds.
-/

section

variable [Platform]

/-! ## Seen rows -/

variable {table : TableDef} {hidden : List Ordinal} {context : SecurityContext}
  {records : RecordTransaction}

/-- Rows that are returned up to what is concealed of them. -/
theorem Query.answers_of_shown
    {query : Query}
    (uncomputed : query.compute = [])
    {filter : Expr}
    (shows : ∀ ordinal < table.columns.length, ordinal ∉ hidden →
      ordinal ∈ planOutputColumns table filter query.projection query.sort)
    (rows : List Row) :
    query.answers table filter hidden rows =
      (rows.filter filter.admits).map (fun row => conceal row hidden) := by
  have isSelected (row : Row) :
      (query.select table filter row).map (fun row => conceal row hidden) =
        if filter.admits row then some (conceal row hidden) else none := by
    have isRow : extendRow row query.compute [] none = row := by
      rw [uncomputed]
      rfl
    rw [select, isRow]
    split
    · refine congrArg (fun values => some (⟨values⟩ : Row))
        (ext_getElem? (fun ordinal => ?_))
      rw [getElem?_foldl_null, getElem?_foldl_null, Row.keep, getElem?_mapIdx]
      split
      · rw [Option.map_map]
        rfl
      · next isShown =>
          cases row.values[ordinal]? with
          | none => rfl
          | some value =>
              refine congrArg some (if_neg ?_)
              rintro ⟨inside, notKept⟩
              refine notKept ?_
              rw [kept, uncomputed]
              simp only [transientColumns, flatMap_nil, filter_nil,
                dedup_nil, toFinset_nil, Finset.sdiff_empty]
              exact Finset.mem_union_left _ (shows ordinal inside isShown)
    · rfl
  rw [answers, map_filterMap]
  simp only [isSelected]
  induction rows with
  | nil => rfl
  | cons row rest ih =>
      rw [filterMap_cons, filter_cons]
      split
      · next rejected =>
          split at rejected
          · cases rejected
          · next isRejected => rw [if_neg isRejected, ih]
      · next seen isSeen =>
          split at isSeen
          · next isAdmitted =>
              rw [if_pos isAdmitted, map_cons, ih, Option.some.inj isSeen]
          · cases isSeen

/-- Whole rows are seen in the columns that their caller may read. -/
theorem SecuredReads.answers_whole
    {reads : SecuredReads} {query : Query}
    (uncomputed : query.compute = [])
    (whole : query.projection = .all)
    (table : TableDef) (filter : Expr) (rows : List Row) :
    reads.answers context table query filter rows =
      (rows.filter (query.filter.andThen filter).admits).map
        (fun row => conceal row (reads.security.concealed context table)) := by
  have isShown := reads.shown_eq context table query
  rw [answers]
  refine Query.answers_of_shown ?_ (fun ordinal inside isShown => ?_) rows
  · rw [isShown]
    exact uncomputed
  · cases isReadable : reads.security.readable context table with
    | none =>
        rw [shown, isReadable]
        dsimp only
        rw [whole]
        exact Finset.mem_range.mpr inside
    | some readable =>
        have isRead : ordinal ∈ readable := by
          by_contra unread
          refine isShown ?_
          rw [SecurityCatalog.concealed, isReadable]
          exact mem_filter.mpr ⟨mem_range.mpr inside, decide_eq_true unread⟩
        rw [shown, isReadable]
        dsimp only
        rw [readableProjection, whole]
        refine mem_toFinset.mpr (mem_filter.mpr
          ⟨mem_append_left _ (mem_append_right _ ?_), decide_eq_true inside⟩)
        exact (Finset.mem_sort _).mpr isRead

/-! ## Rows to purge -/

/-- A row that was retired before an instant. -/
def Row.retiredBefore (row : Row) (column : Ordinal) (before : Int64) :
    Bool :=
  (row.get column).any (fun stamp => !stamp.isNull && stamp.cmp (.i64 before) == .lt)

/-- The query of a purge. -/
def purgeQuery (column : Ordinal) (before : Int64) : Query where
  filter := .all [.isNull column true, .compare column .lt (.i64 before)]
  includeDeleted := true

omit [Platform] in
theorem not_searched_purgeQuery
    (column : Ordinal) (before : Int64) (index : IndexDef) :
    ¬index.Searched (purgeQuery column before).filter := by
  rintro ⟨_, -, _, member⟩
  have isPart : _ ∈ [Expr.isNull column true,
    .compare column .lt (.i64 before)] := member
  simp at isPart

theorem admits_purgeQuery
    (column : Ordinal) (before : Int64) (filter : Expr) (row : Row) :
    ((purgeQuery column before).filter.andThen filter).admits row =
      (row.retiredBefore column before && filter.admits row) := by
  have isAdmitted (predicate : Expr) : predicate.admits row = true ↔
        predicate.evaluateOver row.get = .true := by
    rw [Expr.admits, Expr.evaluate]
    cases predicate.evaluateOver row.get <;> simp [Truth.admits]
  rw [Bool.eq_iff_iff, Bool.and_eq_true, isAdmitted,
    Expr.evaluateOver_andThen, isAdmitted]
  refine and_congr_left (fun _ => ?_)
  rw [purgeQuery, Expr.evaluateOver_all, forall_mem_cons, forall_mem_singleton,
    Expr.evaluateOver, Expr.evaluateOver, evaluateCompare, Row.retiredBefore]
  cases row.get column with
  | none => simp
  | some stamp =>
      have notNull : (Value.i64 before).isNull = false := rfl
      have isLess : CmpOp.lt.apply (stamp.cmp (.i64 before)) =
          (stamp.cmp (.i64 before) == .lt) :=
        rfl
      simp only [Option.all_some, Option.any_some, isLess, notNull, Bool.or_false]
      cases stamp.isNull <;> cases stamp.cmp (.i64 before) == .lt <;>
        simp [Truth.from]

/-- The keys that erasing rows clears. -/
def erasedKeys (table : TableDef) (rows : List Row) : List Bytes :=
  rows.flatMap (fun row => (RecordTransaction.eraseChanges table row).map Prod.fst)

/-- A purge that clears its rows and their entries, and nothing else. -/
structure PurgedCleanly (table : TableDef) (purged : List Row)
    (before after : Snapshot) (count : Nat) : Prop where
  erased : ∀ key ∈ erasedKeys table purged, after.get key = none
  untouched : ∀ key, key ∉ erasedKeys table purged → after.get key = before.get key
  counted : count = purged.length

/-! ## Erased keys -/

theorem Row.Same.eraseChanges
    {first second : Row} (same : first.Same second) (table : TableDef) :
    eraseChanges table first = eraseChanges table second := by
  rw [RecordTransaction.eraseChanges, RecordTransaction.eraseChanges, same.rowKey table]
  congr 1
  exact flatMap_congr (fun index _ => by rw [same.admittedEntries])

theorem mem_erasedKeys_of_perm
    {first second : List Row}
    (perm : (first.map Row.canonical).Perm (second.map Row.canonical))
    (key : Bytes) :
    key ∈ erasedKeys table first ↔ key ∈ erasedKeys table second := by
  have isErased (rows : List Row) : key ∈ erasedKeys table rows ↔
        ∃ values ∈ rows.map Row.canonical, key ∈ (eraseChanges table ⟨values⟩).map
            Prod.fst := by
    rw [erasedKeys, mem_flatMap]
    simp only [mem_map, exists_exists_and_eq_and]
    refine exists_congr (fun row => and_congr_right (fun _ => ?_))
    rw [row.same_canonical.eraseChanges]
  rw [isErased, isErased]
  exact exists_congr (fun values => and_congr_left (fun _ => perm.mem_iff))

/-- Erasing rows clears their keys and leaves all others. -/
theorem get_eraseChanges
    (table : TableDef) (rows : List Row) (state : RecordState) (key : Bytes) :
    (state.changed (rows.flatMap (eraseChanges table))).transaction.get key =
      if key ∈ erasedKeys table rows then none
      else state.transaction.get key := by
  have clears : ∀ change ∈ rows.flatMap (eraseChanges table), change.2 = none := by
    intro change member
    obtain ⟨row, -, inChanges⟩ := mem_flatMap.mp member
    rcases mem_append.mp inChanges with inIndexes | isRow
    · obtain ⟨index, -, inEntries⟩ := mem_flatMap.mp inIndexes
      obtain ⟨entry, -, rfl⟩ := mem_map.mp inEntries
      rfl
    · rw [mem_singleton.mp isRow]
  have isErased : erasedKeys table rows =
      (rows.flatMap (eraseChanges table)).map Prod.fst := by
    rw [erasedKeys, map_flatMap]
  rw [isErased]
  split
  · next member =>
      obtain ⟨change, inChanges, rfl⟩ := mem_map.mp member
      rw [RecordState.get_changed, Overlay.lastWrite_of_mem inChanges
        (fun other inOthers _ => (clears other inOthers).trans
        (clears change inChanges).symm), clears change inChanges]
      rfl
  · next absent =>
      exact RecordState.get_changed_of_absent (fun change member sameKey =>
        absent (mem_map.mpr ⟨change, member, sameKey⟩))

variable {atMost : Option Nat} {state : RecordState}

theorem RecordTransaction.erases_purgeDeleted
    {column : Ordinal}
    (retires : table.softDelete = some column)
    {before : Int64} {after : RecordState} {count : Nat}
    (ran : (records.purgeDeleted context table before atMost).run state =
      (.ok count, after)) :
    ∃ cursor doomed, records.reads.execute state.transaction context table
        (purgeQuery column before) = .ok cursor ∧
      cursor.collect = .ok doomed ∧ count = doomed.length ∧
      ∀ key, after.transaction.get key =
        if key ∈ erasedKeys table doomed then none
        else state.transaction.get key := by
  rw [purgeDeleted, retires] at ran
  obtain ⟨⟨⟩, between, authorized, ran⟩ := run_bind_eq_ok.mp ran
  rw [run_lift] at authorized
  obtain ⟨-, rfl⟩ := Prod.mk.inj authorized
  obtain ⟨doomed, found, ran⟩ := run_reading_bind_eq_ok.mp ran
  obtain ⟨cursor, executed, matched⟩ := bind_eq_ok.mp found
  rw [run_bind_of_ok (run_forEach_changes
    (fun row _ => run_eraseRow table row) state), run_pure] at ran
  obtain ⟨isCount, rfl⟩ := Prod.mk.inj ran
  exact ⟨cursor, doomed, executed, collect_of_collectMatched matched,
    (Except.ok.inj isCount).symm, get_eraseChanges table doomed state⟩

theorem RecordTransaction.run_purgeDeleted
    {column : Ordinal}
    (retires : table.softDelete = some column)
    (authorized : records.security.authorize context table .delete = .ok ())
    {before : Int64} {cursor : Cursor Row}
    (executed : records.reads.execute state.transaction context table
      (purgeQuery column before) = .ok cursor)
    {doomed : List Row}
    (matched : collectMatched atMost cursor = .ok doomed) :
    (records.purgeDeleted context table before atMost).run state = (.ok doomed.length,
        state.changed (doomed.flatMap (eraseChanges table))) := by
  have found : (do
      let cursor ← records.reads.execute state.transaction context table
        (purgeQuery column before)
      collectMatched atMost cursor) = .ok doomed :=
    bind_eq_ok.mpr ⟨cursor, executed, matched⟩
  rw [purgeDeleted, retires]
  refine run_bind_eq_ok.mpr ⟨(), state, ?_, ?_⟩
  · rw [run_lift, authorized]
  · refine run_reading_bind_eq_ok.mpr ⟨doomed, found, ?_⟩
    rw [run_bind_of_ok (run_forEach_changes
      (fun row _ => run_eraseRow table row) state), run_pure]

variable {row : Row}

/-- A row whose key can be seen is told by it. -/
theorem rowKey_of_conceal
    (wellFormed : table.WellFormed)
    {other : Row}
    (valid : row.validate table = .ok ())
    (valid' : other.validate table = .ok ())
    (sameKey : rowKey table ((conceal other hidden).primaryKeyValues table) =
      rowKey table (row.primaryKeyValues table)) :
    rowKey table (other.primaryKeyValues table) =
      rowKey table (row.primaryKeyValues table) := by
  have sameValues := canonical_of_encode_primaryKey wellFormed valid
    (rowKey_inj sameKey).2
  refine rowKey_eq_of_canonical (ext_getElem? (fun place => ?_))
  have here := congrArg (fun values : List Value => values[place]?) sameValues
  simp only [Row.primaryKeyValues, Row.project, map_map, getElem?_map] at here ⊢
  cases isOrdinal : table.primaryKey[place]? with
  | none => rfl
  | some ordinal =>
      rw [isOrdinal] at here
      have sameHere : ((conceal other hidden).valueOrNull ordinal).canonical =
          (row.valueOrNull ordinal).canonical :=
        Option.some.inj here
      refine congrArg some ?_
      change (other.valueOrNull ordinal).canonical = (row.valueOrNull ordinal).canonical
      rw [← sameHere]
      by_cases isHidden : ordinal ∈ hidden
      · -- A key column that is null in a stored row is null in every row.
        obtain ⟨column, found, always, -⟩ :=
          wellFormed.key ordinal (mem_of_getElem? isOrdinal)
        have holds := Row.holds_of_validate wellFormed valid found
        have holds' := Row.holds_of_validate wellFormed valid' found
        have isNull : (conceal other hidden).valueOrNull ordinal = .null := by
          rw [Row.valueOrNull, Row.get, conceal, getElem?_foldl_null, if_pos isHidden]
          cases other.values[ordinal]? <;> rfl
        rw [isNull] at sameHere ⊢
        have rowNull : row.valueOrNull ordinal = .null := Value.eq_null_of_isNull (by
            rw [← Value.isNull_canonical, ← sameHere]
            rfl)
        cases isDropped : column.isDropped with
        | true => rw [holds'.dropped isDropped]
        | false => exact absurd rowNull (holds.present isDropped always)
      · rw [Row.valueOrNull, Row.valueOrNull, Row.get, Row.get, conceal,
          getElem?_foldl_null, if_neg isHidden]

variable {rows : List Row}

theorem rowKey_mem_erasedKeys
    {owner : TableDef} {primaryKey : List Value} :
    rowKey owner primaryKey ∈ erasedKeys table rows ↔
      ∃ row ∈ rows, rowKey table (row.primaryKeyValues table) =
        rowKey owner primaryKey := by
  rw [erasedKeys, mem_flatMap]
  refine exists_congr (fun row => and_congr_right (fun _ => ?_))
  constructor
  · intro isErased
    obtain ⟨change, member, sameKey⟩ := mem_map.mp isErased
    rcases mem_append.mp member with inIndexes | isRow
    · obtain ⟨index, -, inEntries⟩ := mem_flatMap.mp inIndexes
      obtain ⟨entry, isEntry, rfl⟩ := mem_map.mp inEntries
      have ofIndex := ofIndex_of_mem_admittedEntries isEntry
      rw [show entry.key = _ from sameKey] at ofIndex
      exact absurd ofIndex (not_ofIndex_rowKey _ _ _)
    · rw [mem_singleton.mp isRow] at sameKey
      exact sameKey
  · intro sameKey
    exact mem_map.mpr ⟨_, mem_append_right _ (mem_singleton.mpr rfl), sameKey⟩

section

variable
  {catalog : Catalog}
  {wellFormed : catalog.WellFormed}
  {snapshot : Snapshot}
  {table : TableDef}
  {tableRows : List Row}
  (readable : ReadableTable wellFormed snapshot table tableRows)

include readable

theorem ReadableTable.held
    (member : row ∈ tableRows) :
    (snapshot.get (rowKey table (row.primaryKeyValues table))).isSome := by
  obtain ⟨record, stored, same⟩ := readable.exists_record member
  have held := stored.held
  rw [CatalogRow.key, stored.ofTable, ← same.rowKey] at held
  rw [held]
  rfl

theorem ReadableTable.eq_of_rowKey
    {other : Row}
    (member : row ∈ tableRows)
    (member' : other ∈ tableRows)
    (sameKey : rowKey table (row.primaryKeyValues table) =
      rowKey table (other.primaryKeyValues table)) :
    row = other :=
  inj_on_of_nodup_map (pairwise_map.mpr readable.pairwise_rowKey) member member' sameKey

theorem ReadableTable.eq_of_conceal
    {other : Row}
    (member : row ∈ tableRows)
    (member' : other ∈ tableRows)
    {hidden : List Ordinal}
    (sameKey : rowKey table ((conceal other hidden).primaryKeyValues table) =
      rowKey table (row.primaryKeyValues table)) :
    other = row := by
  obtain ⟨record, stored, same⟩ := readable.exists_record member
  obtain ⟨record', stored', same'⟩ := readable.exists_record member'
  have tableWellFormed := wellFormed.tables table readable.inCatalog
  have valid := record.valid
  have valid' := record'.valid
  rw [stored.ofTable] at valid
  rw [stored'.ofTable] at valid'
  rw [(same'.conceal hidden).rowKey, same.rowKey] at sameKey
  refine readable.eq_of_rowKey member' member ?_
  rw [same.rowKey, same'.rowKey]
  exact rowKey_of_conceal tableWellFormed valid valid' sameKey

end

/-! ## Clean purges -/

/-- The retired rows of a table that a filter admits. -/
def retiredRows (column : Ordinal) (before : Int64) (filter : Expr)
    (rows : List Row) : List Row :=
  rows.filter (fun row => row.retiredBefore column before && filter.admits row)

variable {column : Ordinal} {before : Int64}

theorem retiredRows_congr
    {first second : Expr}
    (agree : ∀ row ∈ rows, row.retiredBefore column before = true →
      first.admits row = second.admits row) :
    retiredRows column before first rows = retiredRows column before second rows := by
  refine filter_congr (fun row member => ?_)
  cases isRetired : row.retiredBefore column before with
  | true => rw [agree row member isRetired]
  | false => rfl

/--
A filter that finds no more rows than another, and finds as many of them, admits
the same retired rows.
-/
theorem agree_of_retiredRows
    {first second : Expr}
    (found : ∀ row ∈ retiredRows column before second rows,
      row ∈ retiredRows column before first rows)
    (sameLength : (retiredRows column before second rows).length =
      (retiredRows column before first rows).length)
    (member : row ∈ rows)
    (isRetired : row.retiredBefore column before = true) :
    first.admits row = second.admits row := by
  have isSecond : (retiredRows column before first rows).filter
      (fun row => row.retiredBefore column before && second.admits row) =
        retiredRows column before second rows := by
    rw [retiredRows, retiredRows, filter_filter]
    refine filter_congr (fun other inRows => ?_)
    cases isFound : other.retiredBefore column before && second.admits other with
    | true =>
        have inFirst := found other (mem_filter.mpr ⟨inRows, isFound⟩)
        rw [(mem_filter.mp inFirst).2]
        rfl
    | false => rfl
  rw [← isSecond, length_filter_eq_length_iff] at sameLength
  rw [Bool.eq_iff_iff]
  constructor
  · intro isAdmitted
    have both := sameLength row (mem_filter.mpr
      ⟨member, Bool.and_eq_true_iff.mpr ⟨isRetired, isAdmitted⟩⟩)
    exact (Bool.and_eq_true_iff.mp both).2
  · intro isAdmitted
    have inFirst := found row (mem_filter.mpr
      ⟨member, Bool.and_eq_true_iff.mpr ⟨isRetired, isAdmitted⟩⟩)
    exact (Bool.and_eq_true_iff.mp (mem_filter.mp inFirst).2).2

/-- What a purge finds is what its caller sees of the rows it may read. -/
theorem RecordTransaction.finds_purgeDeleted
    {records : RecordTransaction}
    {wellFormed : records.catalog.WellFormed}
    {context : SecurityContext} {table : TableDef}
    (retires : table.softDelete = some column)
    {after : RecordState} {tableRows : List Row}
    (readable : ReadableTable wellFormed state.transaction table tableRows)
    {filter : Expr}
    (isFilter : records.security.rowFilterWith context table .read .visible =
      .ok filter)
    {count : Nat}
    (ran : (records.purgeDeleted context table before atMost).run state =
      (.ok count, after)) :
    count = (retiredRows column before filter tableRows).length ∧
      ∀ key, after.transaction.get key =
        if key ∈ erasedKeys table ((retiredRows column before filter tableRows).map
              (fun row => conceal row
                (records.security.concealed context table))) then none
        else state.transaction.get key := by
  obtain ⟨cursor, doomed, executed, collected, rfl, clears⟩ :=
    erases_purgeDeleted retires ran
  obtain ⟨plan, planned, -⟩ := bind_eq_ok.mp executed
  have answers := SecuredReads.answersFrom_of_planned readable planned isFilter
    rfl (fun _ _ _ index _ _ searched => absurd searched (IndexDef.not_searched_andThen
        (not_searched_purgeQuery column before index)
        (SecurityCatalog.not_searched_rowFilterWith isFilter index)))
  rcases answers with ⟨-, refused⟩ | ⟨-, refused⟩ | found
  · rw [executed] at refused
    cases refused
  · rw [executed] at refused
    cases refused
  · obtain ⟨cursor', rows, executed', collected', perm⟩ := found
    rw [executed] at executed'
    obtain rfl := Except.ok.inj executed'
    rw [collected] at collected'
    obtain rfl := Except.ok.inj collected'
    have isFound : tableRows.filter
        ((purgeQuery column before).filter.andThen filter).admits =
          retiredRows column before filter tableRows :=
      filter_congr (fun row _ => admits_purgeQuery column before filter row)
    rw [SecuredReads.answers_whole rfl rfl, isFound] at perm
    refine ⟨?_, fun key => ?_⟩
    · simpa using perm.length_eq
    · rw [clears]
      exact if_congr (mem_erasedKeys_of_perm perm key) rfl rfl

/--
A purge that succeeds erases exactly the retired rows that a filter for deletes
admits, and leaves all else alone, if and only if its caller reads the same
retired rows that the filter admits, and works out of what it sees of them the
keys that they are stored under.
-/
theorem purgedCleanly_iff
    {tables : List TableDef}
    (built : ∀ table ∈ tables, ∃ builder : TableBuilder, builder.build = .ok table)
    {records : RecordTransaction}
    (made : Catalog.fromTables tables = .ok records.catalog)
    {context : SecurityContext} {table : TableDef} {column : Ordinal}
    (retires : table.softDelete = some column)
    {before : Int64} {atMost : Option Nat} {state after : RecordState}
    {tableRows : List Row}
    (readable : ReadableTable (Catalog.wellFormed_of_fromTables built made)
      state.transaction table tableRows)
    {readFilter deleteFilter : Expr}
    (isRead : records.security.rowFilterWith context table .read .visible =
      .ok readFilter)
    {count : Nat}
    (ran : (records.purgeDeleted context table before atMost).run state =
      (.ok count, after)) :
    PurgedCleanly table (retiredRows column before deleteFilter tableRows)
        state.transaction after.transaction count ↔
      (∀ row ∈ tableRows, row.retiredBefore column before = true →
        readFilter.admits row = deleteFilter.admits row) ∧
      ∀ key, (state.transaction.get key).isSome → (key ∈ erasedKeys table
            ((retiredRows column before readFilter tableRows).map
              (fun row => conceal row (records.security.concealed context table))) ↔
          key ∈ erasedKeys table (retiredRows column before readFilter tableRows)) := by
  obtain ⟨isCount, clears⟩ := finds_purgeDeleted retires
    readable isRead ran
  generalize records.security.concealed context table = hidden at clears ⊢
  constructor
  · intro clean
    have sameLength := clean.counted.symm.trans isCount
    have isFound : ∀ row ∈ retiredRows column before deleteFilter tableRows,
        row ∈ retiredRows column before readFilter tableRows := by
      intro row member
      have inTable : row ∈ tableRows := mem_of_mem_filter member
      have gone := clean.erased (rowKey table (row.primaryKeyValues table))
        (rowKey_mem_erasedKeys.mpr ⟨row, member, rfl⟩)
      rw [clears] at gone
      split at gone
      · next isErased =>
          obtain ⟨seen, isSeen, sameKey⟩ := rowKey_mem_erasedKeys.mp isErased
          obtain ⟨other, inFound, rfl⟩ := mem_map.mp isSeen
          rw [← readable.eq_of_conceal inTable (mem_of_mem_filter inFound) sameKey]
          exact inFound
      · have held := readable.held inTable
        rw [gone] at held
        cases held
    have agree : ∀ row ∈ tableRows, row.retiredBefore column before = true →
        readFilter.admits row = deleteFilter.admits row :=
      fun row member isRetired =>
        agree_of_retiredRows isFound sameLength member isRetired
    refine ⟨agree, fun key isHeld => ?_⟩
    rw [retiredRows_congr agree] at clears ⊢
    have isAfter := clears key
    constructor
    · intro isErased
      by_contra isKept
      rw [if_pos isErased, clean.untouched key isKept] at isAfter
      rw [isAfter] at isHeld
      cases isHeld
    · intro isErased
      by_contra isKept
      rw [if_neg isKept, clean.erased key isErased] at isAfter
      rw [← isAfter] at isHeld
      cases isHeld
  · rintro ⟨agree, sameKeys⟩
    rw [retiredRows_congr agree] at isCount clears sameKeys
    refine ⟨fun key isErased => ?_, fun key isKept => ?_, isCount⟩
    · rw [clears]
      split
      · rfl
      · next isKept =>
          rw [← Option.not_isSome_iff_eq_none]
          exact fun isHeld => isKept ((sameKeys key isHeld).mpr isErased)
    · rw [clears]
      split
      · next isErased =>
          rw [eq_comm, ← Option.not_isSome_iff_eq_none]
          exact fun isHeld => isKept ((sameKeys key isHeld).mp isErased)
      · rfl

end

section

local instance purgesPlatform : Platform := asciiPlatform

/-- A badge is issued and retired. -/
def retiredBadgeCalls : List Call := [.write (.plain ⟨[badges]⟩) .superuser badges
      (.keyed (.insert ⟨[.i64 1, .i64 7, .null]⟩)),
    .write (.plain ⟨[badges]⟩) .superuser badges (.delete [.i64 1])]

/-- A transaction that has retired a badge. -/
def retiredBadge : RecordState :=
  (retiredBadgeCalls.foldlM Call.step (.begin ∅)).getD (.begin ∅)

/-- Transactions in which clerks purge badges and read some of their columns. -/
def clerkRecords (columns : Option ColumnSet) : RecordTransaction :=
  { RecordTransaction.plain ⟨[badges]⟩ with
    security := {
      grants := [⟨"clerk", 1, [.read], columns⟩,
        ⟨"clerk", 1, [.readDeleted, .delete], none⟩] } }

/-- A clerk. -/
def badgeClerk : SecurityContext where
  principal := ⟨.i64 1, none, ["clerk"]⟩

theorem run_retiredBadge :
    LabelledRun Call.step (.begin ∅) retiredBadgeCalls retiredBadge := by
  have taken : (retiredBadgeCalls.foldlM Call.step (.begin ∅)).isSome = true :=
    by decide
  refine .of_foldlM ?_
  rw [retiredBadge]
  cases isState : retiredBadgeCalls.foldlM Call.step (.begin ∅) with
  | none =>
      rw [isState] at taken
      cases taken
  | some state => rfl

theorem keeps_retiredBadge :
    Catalog.Keeps (Catalog.wellFormed_of_fromTables built_badges rfl)
      retiredBadge := by
  have onCatalog : ∀ call ∈ retiredBadgeCalls, call.On ⟨[badges]⟩ := by
    simp [retiredBadgeCalls, Call.On, plain]
  have isFree : ((retiredBadgeCalls.take 1).foldlM Call.step
      (.begin ∅)).all (deletionFree (.plain ⟨[badges]⟩)
        .superuser badges [.i64 1]) = true := by
    decide
  refine (Catalog.keepsOnly_of_undisturbed _ staysValid_badges
    (LabelledRun.along_of_taken (fun count call isCall state taken =>
    ⟨onCatalog call (mem_of_getElem? isCall), ?_⟩)) run_retiredBadge).keeps
  obtain ⟨inCalls, rfl⟩ := List.getElem?_eq_some_iff.mp isCall
  clear isCall
  change count < 2 at inCalls
  interval_cases count
  · refine ⟨?_, fun _ => TableDef.slotsUnstamped_of_unmanaged rfl⟩
    simp [KeyedWrite.rows, Row.Fits, Value.fits]
  · rw [show foldlM Call.step (RecordState.begin ∅)
      (take 1 retiredBadgeCalls) = some state from taken] at isFree
    exact undisturbed_of_deletionFree isFree

/-- What a clerk that does not see the codes of badges finds to purge. -/
def foundByClerk (snapshot : Snapshot) : Except KernelError (Cursor Row) := do
  let plan ← (clerkRecords (some {0, 2})).reads.planSecured badgeClerk badges
    { purgeQuery 2 200 with projection := .columns [0, 2] }
  openCursor {} snapshot badges { plan with concealed := [1] }
    (purgeQuery 2 200)

theorem execute_clerk
    (snapshot : Snapshot) :
    (clerkRecords (some {0, 2})).reads.execute snapshot badgeClerk badges
      (purgeQuery 2 200) = foundByClerk snapshot := by
  have isSorted : ({0, 2} : ColumnSet).sort = [0, 2] :=
    (toFinset_sort (l := [0, 2]) (· ≤ ·) (by decide)).mpr (by decide)
  have isShown : readableProjection (purgeQuery 2 200) {0, 2} =
      { purgeQuery 2 200 with projection := .columns [0, 2] } := by
    rw [← isSorted]
    rfl
  have isReadable : (clerkRecords (some {0, 2})).reads.security.readable badgeClerk
      badges = some {0, 2} :=
    rfl
  rw [SecuredReads.execute, SecuredReads.plan, isReadable]
  dsimp only
  rw [isShown]
  rfl

/-- How many rows a purge erases, and how many of their keys are still held. -/
def clerkPurge (found : Except KernelError (Cursor Row)) : Option (Nat × Nat) := do
  let rows ← (readTable retiredBadge.transaction badges).toOption
  let cursor ← found.toOption
  let doomed ← cursor.collect.toOption
  let after := retiredBadge.changed
    (doomed.flatMap (RecordTransaction.eraseChanges badges))
  return (doomed.length, ((erasedKeys badges (retiredRows 2 200 .true rows)).filter
      (fun key => (after.transaction.get key).isSome)).length)

theorem of_clerkPurge
    {columns : Option ColumnSet} {count held : Nat}
    (purged : clerkPurge ((clerkRecords columns).reads.execute
      retiredBadge.transaction badgeClerk badges (purgeQuery 2 200)) =
        some (count, held)) :
    ∃ rows after, ReadableTable (Catalog.wellFormed_of_fromTables built_badges rfl)
        retiredBadge.transaction badges rows ∧
      ((clerkRecords columns).purgeDeleted badgeClerk badges 200 none).run
        retiredBadge = (.ok count, after) ∧
      ((erasedKeys badges (retiredRows 2 200 .true rows)).filter
        (fun key => (after.transaction.get key).isSome)).length = held := by
  rw [clerkPurge] at purged
  obtain ⟨rows, isRead, purged⟩ := Option.bind_eq_some_iff.mp purged
  obtain ⟨cursor, executed, purged⟩ := Option.bind_eq_some_iff.mp purged
  obtain ⟨doomed, collected, purged⟩ := Option.bind_eq_some_iff.mp purged
  obtain ⟨rfl, isHeld⟩ := Prod.mk.inj (Option.some.inj purged)
  exact ⟨rows, _, ⟨mem_singleton.mpr rfl, keeps_retiredBadge, eq_ok_of_toOption
    isRead⟩, run_purgeDeleted rfl rfl (eq_ok_of_toOption executed)
    (eq_ok_of_toOption collected), isHeld⟩

/-- A clerk that sees all of a badge purges it with its entry. -/
theorem purgedCleanly_clerk :
    ∃ rows after, readTable retiredBadge.transaction badges = .ok rows ∧
      ((clerkRecords none).purgeDeleted badgeClerk badges 200 none).run
        retiredBadge = (.ok 1, after) ∧
      PurgedCleanly badges (retiredRows 2 200 .true rows)
        retiredBadge.transaction after.transaction 1 := by
  have purged : clerkPurge ((clerkRecords none).reads.execute
      retiredBadge.transaction badgeClerk badges (purgeQuery 2 200)) = some (1, 0) := by
    decide
  obtain ⟨rows, after, readable, ran, -⟩ := of_clerkPurge purged
  refine ⟨rows, after, readable.reads, ran, (purgedCleanly_iff built_badges rfl
    rfl readable rfl ran).mpr ⟨fun _ _ _ => rfl, fun key _ => ?_⟩⟩
  have concealsNone : (clerkRecords none).security.concealed badgeClerk badges = [] :=
    rfl
  rw [concealsNone]
  simp

/-- A badge whose code is concealed is purged without its entry. -/
theorem not_purgedCleanly_concealed :
    ¬∀ (_ : Platform) (tables : List TableDef) (built : ∀ table ∈ tables,
        ∃ builder : TableBuilder, builder.build = .ok table)
      (records : RecordTransaction)
      (made : Catalog.fromTables tables = .ok records.catalog)
      (context : SecurityContext) (table : TableDef) (column : Ordinal),
      table.softDelete = some column →
      ∀ (before : Int64) (atMost : Option Nat) (state after : RecordState)
        (tableRows : List Row),
      ReadableTable (Catalog.wellFormed_of_fromTables built made)
        state.transaction table tableRows →
      ∀ deleteFilter, records.security.rowFilterWith context table .delete
        .visible = .ok deleteFilter →
      ∀ count, (records.purgeDeleted context table before atMost).run state =
        (.ok count, after) →
      PurgedCleanly table (retiredRows column before deleteFilter tableRows)
        state.transaction after.transaction count := by
  intro always
  have purged : clerkPurge (foundByClerk retiredBadge.transaction) = some (1, 1) := by
    decide
  rw [← execute_clerk] at purged
  obtain ⟨rows, after, readable, ran, isHeld⟩ := of_clerkPurge purged
  have clean := always purgesPlatform [badges] built_badges
    (clerkRecords (some {0, 2})) rfl badgeClerk badges 2 rfl 200 none retiredBadge
    after rows readable .true rfl 1 ran
  have noneHeld : (erasedKeys badges (retiredRows 2 200 .true rows)).filter
      (fun key => (after.transaction.get key).isSome) = [] := by
    refine filter_eq_nil_iff.mpr (fun key isErased => ?_)
    rw [clean.erased key isErased]
    decide
  rw [noneHeld] at isHeld
  cases isHeld

end

end SlateOrm
