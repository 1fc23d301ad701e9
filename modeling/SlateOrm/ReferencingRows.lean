import SlateOrm.QueryReads
import SlateOrm.RecordDelete

namespace SlateOrm

open List

/-!
# The rows that reference a key

A deletion looks for the rows that hold its key in a foreign key.  Nothing is
hidden from that search but, where it asks for it, retired rows, and no index
that it may go through is one of words.  So it finds them all.
-/

/-! ## Conjunctions -/

section

variable [Platform]

theorem Expr.evaluateOver_andThen
    (first second : Expr) (row : Columns) :
    (first.andThen second).evaluateOver row = .true ↔
      first.evaluateOver row = .true ∧ second.evaluateOver row = .true := by
  unfold Expr.andThen
  split
  case h_7 =>
    simp only [Expr.evaluateOver, Expr.evaluateAnd_eq_true_iff, mem_append,
      mem_singleton, true_and, or_imp, forall_and, forall_eq]
    exact and_comm
  all_goals simp [Expr.evaluateOver, Expr.evaluateAnd_eq_true_iff, or_imp, forall_and]

theorem Expr.admits_andThen
    (first second : Expr) (row : Row) :
    (first.andThen second).admits row = (first.admits row && second.admits row) := by
  rw [Bool.eq_iff_iff, Bool.and_eq_true, admits, admits, admits, evaluate,
    evaluate, evaluate, Truth.admits_iff, Truth.admits_iff, Truth.admits_iff,
    evaluateOver_andThen]

end

theorem Expr.conjunctsList_append
    (first second : List Expr) :
    Expr.conjunctsList (first ++ second) =
      Expr.conjunctsList first ++ Expr.conjunctsList second := by
  induction first with
  | nil => rfl
  | cons part rest ih =>
      rw [cons_append, conjunctsList, conjunctsList, ih, append_assoc]

variable {second : Expr}

theorem Expr.mem_conjuncts_andThen
    {first conjunct : Expr}
    (member : conjunct ∈ (first.andThen second).conjuncts) :
    conjunct ∈ first.conjuncts ∨ conjunct ∈ second.conjuncts := by
  unfold Expr.andThen at member
  split at member
  case h_7 =>
    simp only [conjuncts, conjunctsList_append, mem_append,
      conjunctsList, append_nil] at member ⊢
    exact member.symm
  all_goals
    simp_all [conjuncts, conjunctsList_append, conjunctsList]

theorem IndexDef.not_searched_andThen
    {index : IndexDef} {first : Expr}
    (notFirst : ¬index.Searched first)
    (notSecond : ¬index.Searched second) :
    ¬index.Searched (first.andThen second) := by
  rintro ⟨column, isHead, terms, member⟩
  rcases Expr.mem_conjuncts_andThen member with isPart | isPart
  · exact notFirst ⟨column, isHead, terms, isPart⟩
  · exact notSecond ⟨column, isHead, terms, isPart⟩

theorem SecurityCatalog.not_searched_notDeleted
    (table : TableDef) (deleted : Deleted) (index : IndexDef) :
    ¬index.Searched (notDeleted table deleted) := by
  rintro ⟨column, -, terms, member⟩
  rw [notDeleted.eq_def] at member
  split at member
  · cases mem_singleton.mp member
  · cases member

variable {context : SecurityContext}

/-- No filter of a caller searches for words: its policies are alternatives. -/
theorem SecurityCatalog.not_searched_rowFilterWith
    {security : SecurityCatalog} {table : TableDef} {action : Action}
    {deleted : Deleted} {filter : Expr}
    (isFilter : security.rowFilterWith context table action deleted = .ok filter)
    (index : IndexDef) :
    ¬index.Searched filter := by
  rw [rowFilterWith] at isFilter
  split at isFilter
  · cases isFilter
    exact not_searched_notDeleted table deleted index
  · obtain ⟨tenant, isTenant, isFilter⟩ := bind_eq_ok.mp isFilter
    cases isFilter
    have notTenant : ¬index.Searched tenant := by
      rintro ⟨column, -, terms, member⟩
      rw [tenantFilter] at isTenant
      split at isTenant
      · cases isTenant
        cases member
      · split at isTenant
        · cases isTenant
        · cases isTenant
          cases mem_singleton.mp member
    refine IndexDef.not_searched_andThen ?_
      (not_searched_notDeleted table deleted index)
    split
    · refine IndexDef.not_searched_andThen notTenant ?_
      rintro ⟨column, -, terms, member⟩
      rw [policyFilter] at member
      split at member
      all_goals cases mem_singleton.mp member
    · exact notTenant

theorem Expr.widestInLists_append
    (first second : List Expr) :
    Expr.widestInLists (first ++ second) =
      max (Expr.widestInLists first) (Expr.widestInLists second) := by
  induction first with
  | nil => exact (Nat.zero_max _).symm
  | cons part rest ih =>
      rw [cons_append, widestInLists, widestInLists, ih, Nat.max_assoc]

theorem Expr.widestInList_andThen
    {first : Expr}
    (isShort : first.widestInList = 0)
    (isShort' : second.widestInList = 0) :
    (first.andThen second).widestInList = 0 := by
  unfold Expr.andThen
  split
  all_goals
    simp_all [widestInList, widestInLists_append, widestInLists]

theorem Expr.columnTypeConflictList_append
    (types : Ordinal → Option ValueType) (first second : List Expr) :
    Expr.columnTypeConflictList types (first ++ second) =
      (Expr.columnTypeConflictList types first).or
        (Expr.columnTypeConflictList types second) := by
  induction first with
  | nil => rfl
  | cons part rest ih =>
      rw [cons_append, columnTypeConflictList, columnTypeConflictList,
        ih, Option.or_assoc]

theorem Expr.columnTypeConflict_andThen
    {types : Ordinal → Option ValueType} {first : Expr}
    (agrees : first.columnTypeConflict types = none)
    (agrees' : second.columnTypeConflict types = none) :
    (first.andThen second).columnTypeConflict types = none := by
  unfold Expr.andThen
  split
  all_goals
    simp_all [columnTypeConflict, columnTypeConflictList_append, columnTypeConflictList]

theorem Expr.all_induction
    (holds : Expr → Prop) (always : holds .true)
    (keeps : ∀ first second, holds first → holds second → holds (first.andThen second))
    {parts : List Expr}
    (each : ∀ part ∈ parts, holds part) :
    holds (Expr.all parts) := by
  suffices every : ∀ (parts : List Expr) (start : Expr),
      (∀ part ∈ parts, holds part) → holds start →
        holds (parts.foldl Expr.andThen start) from
    every parts .true each always
  intro parts
  induction parts with
  | nil => exact fun _ _ holdsStart => holdsStart
  | cons part rest ih =>
      intro start each holdsStart
      have ⟨first, others⟩ := forall_mem_cons.mp each
      exact ih _ others (keeps start part holdsStart first)

section

variable [Platform]

theorem Expr.evaluateOver_all
    (parts : List Expr) (row : Columns) :
    (Expr.all parts).evaluateOver row = .true ↔
      ∀ part ∈ parts, part.evaluateOver row = .true := by
  suffices every : ∀ (parts : List Expr) (start : Expr),
      (parts.foldl Expr.andThen start).evaluateOver row = .true ↔
        start.evaluateOver row = .true ∧
          ∀ part ∈ parts, part.evaluateOver row = .true by
    rw [Expr.all, every]
    exact and_iff_right rfl
  intro parts
  induction parts with
  | nil => simp
  | cons part rest ih =>
      intro start
      rw [foldl_cons, ih, evaluateOver_andThen, forall_mem_cons, and_assoc]

end

/-! ## Keys in foreign keys -/

/-- A row holds a key in the columns of a foreign key. -/
def ForeignKeyDef.Holds (foreignKey : ForeignKeyDef)
    (parentKey : List Value) (row : Row) : Prop :=
  ∀ pair ∈ foreignKey.columns.zip parentKey, ∃ value,
    row.get pair.1 = some value ∧ value.isNull = false ∧
      value.canonical = pair.2.canonical

/-- A row that was not retired. -/
def TableDef.Live (table : TableDef) (row : Row) : Prop :=
  ∀ column, table.softDelete = some column → (row.get column).all Value.isNull = true

/-- The filter that finds a key in the columns of a foreign key. -/
def ForeignKeyDef.filter (foreignKey : ForeignKeyDef) (parentKey : List Value) : Expr :=
  Expr.all ((foreignKey.columns.zip parentKey).map (fun pair => Expr.eq pair.1 pair.2))

namespace ForeignKeyDef

variable
  (foreignKey : ForeignKeyDef)
  (parentKey : List Value)

theorem filter_induction
    (holds : Expr → Prop) (always : holds .true)
    (keeps : ∀ first second, holds first → holds second → holds (first.andThen second))
    (each : ∀ column value, holds (.eq column value)) :
    holds (foreignKey.filter parentKey) := by
  refine Expr.all_induction holds always keeps ?_
  intro part member
  obtain ⟨pair, -, rfl⟩ := mem_map.mp member
  exact each pair.1 pair.2

theorem widestInList_filter :
    (foreignKey.filter parentKey).widestInList = 0 :=
  filter_induction foreignKey parentKey (fun filter => filter.widestInList = 0)
    rfl (fun _ _ => Expr.widestInList_andThen) (fun _ _ => rfl)

theorem columnTypeConflict_filter
    (types : Ordinal → Option ValueType) :
    (foreignKey.filter parentKey).columnTypeConflict types = none :=
  filter_induction foreignKey parentKey
    (fun filter => filter.columnTypeConflict types = none) rfl
    (fun _ _ => Expr.columnTypeConflict_andThen) (fun _ _ => rfl)

theorem not_searched_filter
    (index : IndexDef) :
    ¬index.Searched (foreignKey.filter parentKey) := by
  refine filter_induction foreignKey parentKey (fun filter => ¬index.Searched
    filter) ?_ (fun _ _ => IndexDef.not_searched_andThen) ?_
  · rintro ⟨_, -, _, ⟨⟩⟩
  · rintro _ _ ⟨_, -, _, member⟩
    cases mem_singleton.mp member

variable [Platform]

/-- A filter for a key admits the rows that hold it and are not hidden. -/
theorem admits_filter
    {child : TableDef} {retired : Deleted} {row : Row} :
    ((foreignKey.filter parentKey).andThen
        (SecurityCatalog.notDeleted child retired)).admits row = true ↔
      foreignKey.Holds parentKey row ∧ (retired = .hidden → child.Live row) := by
  rw [Expr.admits, Expr.evaluate, Truth.admits_iff, Expr.evaluateOver_andThen]
  refine and_congr ?_ ?_
  · rw [filter, Expr.evaluateOver_all, forall_mem_map, Holds]
    refine forall₂_congr (fun pair _ => ?_)
    rw [Expr.eq, Expr.evaluateOver, evaluateCompare]
    cases isHeld : row.get pair.1 with
    | none => simp
    | some held =>
        have nulls : held.canonical = pair.2.canonical → held.isNull = pair.2.isNull :=
          fun equal => isNull_respects.eq equal
        cases isNull : held.isNull with
        | true => simp [isNull]
        | false =>
            cases isNull' : pair.2.isNull with
            | true =>
                rw [isNull, isNull'] at nulls
                simpa [isNull] using nulls
            | false => simp [isNull, CmpOp.apply, Value.cmp_eq_iff_canonical]
  · cases retired with
    | visible =>
        rw [SecurityCatalog.notDeleted.eq_def]
        simp [Expr.evaluateOver]
    | hidden =>
        rw [SecurityCatalog.notDeleted.eq_def, TableDef.Live]
        cases table : child.softDelete with
        | none
        | some column => simp [Expr.evaluateOver]

end ForeignKeyDef

section

variable [Platform]

/-! ## Whole rows -/

section

variable
  {query : Query}
  (uncomputed : query.compute = [])
  (whole : query.projection = .all)
  (table : TableDef)
  (filter : Expr)

include uncomputed whole table filter

theorem Query.select_whole
    (row : Row) :
    query.select table filter row =
      if filter.admits row then some row else none := by
  have isRow : row.keep table.columns.length (query.kept table filter) =
      row := by
    have isKept : query.kept table filter =
        Finset.range table.columns.length ∪ table.primaryKey.toFinset := by
      simp [kept, whole, uncomputed, planOutputColumns.eq_def, transientColumns]
    rw [isKept, Row.keep]
    congr 1
    refine ext_getElem? (fun ordinal => ?_)
    rw [getElem?_mapIdx]
    cases row.values[ordinal]? with
    | none => rfl
    | some value =>
        refine congrArg some (if_neg ?_)
        rintro ⟨inside, notKept⟩
        exact notKept (Finset.mem_union_left _ (Finset.mem_range.mpr inside))
  have notExtended : extendRow row query.compute [] none = row := by
    rw [extendRow, if_pos (by rw [uncomputed]; rfl)]
  rw [select, notExtended, isRow]

theorem Query.filterMap_select_whole
    (rows : List Row) :
    rows.filterMap (query.select table filter) = rows.filter filter.admits := by
  rw [← filterMap_eq_filter]
  refine filterMap_congr (fun row _ => ?_)
  rw [select_whole uncomputed whole]
  rfl

end

/-! ## Searches -/

omit [Platform] in
theorem SecuredReads.planSecured_of
    {reads : SecuredReads} {table : TableDef} {query : Query}
    (authorized : reads.authorizeRead context table query = .ok ())
    (scaled : checkDecimalScales table query.compute = .ok ())
    (agrees : query.filter.columnTypeConflict
      (fun column => (table.column column).map ColumnDef.type) = none)
    {filter : Expr}
    (isFilter : reads.rowFilter context table query = .ok filter) :
    reads.planSecured context table query =
      .ok (query.planned table (query.filter.andThen filter)
        (reads.statistics table) []) := by
  rw [planSecured]
  refine bind_eq_ok.mpr ⟨(), authorized, bind_eq_ok.mpr ⟨(), scaled, ?_⟩⟩
  split
  · next conflict => cases agrees.symm.trans conflict
  · refine bind_eq_ok.mpr ⟨filter, isFilter, ?_⟩
    rw [Query.planned, ← concealed_planHinted]
    rfl

/-- A caller that sees every column reads the rows that its row filter and the
query's admit, whole. -/
theorem SecuredReads.perm_of_everyColumn
    {catalog : Catalog}
    {wellFormed : catalog.WellFormed}
    {snapshot : Snapshot} {table : TableDef} {tableRows : List Row}
    (readable : ReadableTable wellFormed snapshot table tableRows)
    {reads : SecuredReads}
    (everyColumn : reads.security.readable context table = none)
    {query : Query}
    (uncomputed : query.compute = [])
    (whole : query.projection = .all)
    {filter : Expr}
    (isFilter : reads.rowFilter context table query = .ok filter)
    (unsearched : ∀ index : IndexDef, ¬index.Searched query.filter)
    {cursor : Cursor Row}
    (isCursor : reads.execute snapshot context table query = .ok cursor)
    {rows : List Row}
    (isRows : cursor.collect = .ok rows) :
    (rows.map Row.canonical).Perm
      ((tableRows.filter (query.filter.andThen filter).admits).map Row.canonical) := by
  obtain ⟨plan, planned, _⟩ := bind_eq_ok.mp isCursor
  have answered := SecuredReads.answersFrom_of_planned readable planned isFilter
    uncomputed (fun _ _ _ index _ _ searched => absurd searched
      (IndexDef.not_searched_andThen (unsearched index)
        (SecurityCatalog.not_searched_rowFilterWith isFilter index)))
  obtain ⟨-, refused⟩ | ⟨-, refused⟩ | ⟨cursor', rows', isCursor', isRows',
    perm⟩ := answered
  · cases isCursor.symm.trans refused
  · cases isCursor.symm.trans refused
  cases isCursor.symm.trans isCursor'
  cases isRows.symm.trans isRows'
  have hidesNothing : reads.security.concealed context table = [] := by
    rw [SecurityCatalog.concealed, everyColumn]
  rw [SecuredReads.answers, SecuredReads.shown, everyColumn, Query.answers,
    Query.filterMap_select_whole uncomputed whole, hidesNothing] at perm
  simpa [conceal] using perm

namespace RecordTransaction

variable
  {catalog : Catalog}
  {wellFormed : catalog.WellFormed}
  {snapshot : Snapshot}
  {child : TableDef}
  {tableRows : List Row}

section

variable
  (records : RecordTransaction)
  (readable : ReadableTable wellFormed snapshot child tableRows)
  (foreignKey : ForeignKeyDef)
  (parentKey : List Value)
  (retired : Deleted)

include records readable foreignKey parentKey retired

/-- A search for a key finds every row that holds it and is not hidden. -/
theorem perm_referencingRows :
    ∃ found, records.referencingRows .superuser child foreignKey parentKey
        retired snapshot = .ok found ∧
      (found.map Row.canonical).Perm ((tableRows.filter
        ((foreignKey.filter parentKey).andThen
          (SecurityCatalog.notDeleted child retired)).admits).map Row.canonical) := by
  let query : Query := {
    filter := foreignKey.filter parentKey
    includeDeleted := retired == .visible }
  let filter := query.filter.andThen (SecurityCatalog.notDeleted child retired)
  let plan := query.planned child filter (records.reads.statistics child) []
  have isFilter : records.reads.rowFilter .superuser child query =
      .ok (SecurityCatalog.notDeleted child retired) := by
    cases retired <;> rfl
  have planned : records.reads.plan .superuser child query = .ok plan := by
    have agrees : query.filter.columnTypeConflict
        (fun column => (child.column column).map ColumnDef.type) = none :=
      foreignKey.columnTypeConflict_filter parentKey _
    have authorized : records.reads.authorizeRead .superuser child query = .ok () := by
      rw [SecuredReads.authorizeRead]
      split <;> rfl
    exact SecuredReads.planSecured_of authorized rfl agrees isFilter
  have executed : records.reads.execute snapshot .superuser child query =
      openCursor records.reads.limits snapshot child plan query := by
    rw [SecuredReads.execute, planned]
    rfl
  have found : ∀ row ∈ tableRows,
      filter.admits (extendRow row query.compute [] none) = true →
        plan.access.finds child row = true :=
    fun row member => finds_of_findable _ rfl readable rfl
      (fun _ _ _ index _ _ searched => absurd searched (IndexDef.not_searched_andThen
          (foreignKey.not_searched_filter parentKey index)
          (SecurityCatalog.not_searched_notDeleted child retired index)))
      member
  have short : query.filter.widestInList ≤
      records.reads.limits.maxInValues := by
    rw [foreignKey.widestInList_filter parentKey]
    exact Nat.zero_le _
  rcases openCursor_planned records.reads.limits readable
    (records.reads.statistics child) [] rfl rfl (fun _ _ =>
    Access.trusted_of_uncomputed rfl) short with
    ⟨isSorted, -⟩ | ⟨-, cursor, rows, opened, collected, perm, -⟩
  · rw [sort_planned rfl] at isSorted
    cases isSorted
  · refine ⟨rows, ?_, ?_⟩
    · exact bind_eq_ok.mpr ⟨cursor, executed.trans opened, collected⟩
    · rw [Query.answers_of_found found, Query.answers,
        Query.filterMap_select_whole rfl rfl] at perm
      simpa using perm

theorem exists_referencingRows :
    ∃ found, records.referencingRows .superuser child foreignKey parentKey
        retired snapshot = .ok found ∧
      (∀ row ∈ found, ∃ stored ∈ tableRows, row.Same stored ∧
        foreignKey.Holds parentKey stored ∧ (retired = .hidden → child.Live stored)) ∧
      ∀ stored ∈ tableRows, foreignKey.Holds parentKey stored →
        (retired = .hidden → child.Live stored) → ∃ row ∈ found, row.Same stored := by
  obtain ⟨found, isFound, perm⟩ := records.perm_referencingRows readable
    foreignKey parentKey retired
  refine ⟨found, isFound, fun row member => ?_, fun stored member isHeld isLive => ?_⟩
  · have listed := perm.mem_iff.mp (mem_map_of_mem member)
    obtain ⟨stored, inKept, same⟩ := mem_map.mp listed
    have ⟨inRows, admitted⟩ := mem_filter.mp inKept
    have ⟨isHeld, isLive⟩ := (foreignKey.admits_filter parentKey).mp admitted
    exact ⟨stored, inRows, same.symm, isHeld, isLive⟩
  · have admitted := (foreignKey.admits_filter parentKey).mpr ⟨isHeld, isLive⟩
    have listed := perm.mem_iff.mpr (mem_map_of_mem (mem_filter.mpr ⟨member, admitted⟩))
    obtain ⟨row, inFound, same⟩ := mem_map.mp listed
    exact ⟨row, inFound, same⟩

end

end RecordTransaction

end

end SlateOrm
