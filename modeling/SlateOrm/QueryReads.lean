import SlateOrm.ConsistentRuns
import SlateOrm.PlanQuestions
import SlateOrm.ReadRows

namespace SlateOrm

open List

/-!
# What a read returns

A query that is opened returns what it makes of every row of its table, sorted
if its path does not come in order, with what the caller does not see made
null.  It is refused when it looks up too long a list or sorts too many rows.
-/

/-! ## Cursors -/

namespace Cursor

variable {α β : Type}

@[simp] theorem collect_map
    (change : α → β) (cursor : Cursor α) :
    (cursor.map change).collect = cursor.collect.map (List.map change) := by
  induction cursor with
  | exhausted
  | failed error => rfl
  | yields item rest ih =>
      rw [map, collect, collect, ih]
      cases rest.collect <;> rfl

@[simp] theorem collect_ofList_self
    (values : List α) :
    (ofList (fun value => .ok (some value)) values).collect = .ok values := by
  induction values with
  | nil => rfl
  | cons value rest ih =>
      rw [ofList, collect, ih]
      rfl

theorem collectAtMost_of_collect
    {cursor : Cursor α} {items : List α}
    (collected : cursor.collect = .ok items)
    (refusal : KernelError) (limit : Nat) :
    cursor.collectAtMost refusal limit =
      if items.length ≤ limit then .ok items else .error refusal := by
  induction cursor generalizing items limit with
  | exhausted =>
      cases collected
      cases limit <;> rfl
  | failed error => cases collected
  | yields item rest ih =>
      obtain ⟨others, isRest, isItems⟩ := bind_eq_ok.mp collected
      cases isItems
      rw [length_cons]
      cases limit with
      | zero =>
          rw [if_neg (Nat.not_succ_le_zero _)]
          rfl
      | succ limit =>
          rw [collectAtMost, ih isRest limit]
          by_cases isFew : others.length ≤ limit
          · rw [if_pos isFew, if_pos (Nat.succ_le_succ isFew)]
            rfl
          · rw [if_neg isFew, if_neg (fun fits => isFew (Nat.le_of_succ_le_succ fits))]
            rfl

end Cursor

/-! ## Equal rows -/

theorem Row.same_canonical
    (row : Row) :
    row.Same ⟨row.canonical⟩ := by
  rw [Row.Same, Row.canonical, map_map]
  exact map_congr_left (fun value _ => (Value.canonical_canonical value).symm)

theorem map_canonical_of_respects
    {change : Row → Row}
    (respects : ∀ {first second : Row}, first.Same second →
      (change first).Same (change second))
    (rows : List Row) :
    (rows.map change).map Row.canonical = (rows.map Row.canonical).map (fun values =>
        (change ⟨values⟩).canonical) := by
  rw [map_map, map_map]
  exact map_congr_left (fun row _ => respects row.same_canonical)

theorem Row.Same.conceal
    {first second : Row} (same : first.Same second) (hidden : List Ordinal) :
    (SlateOrm.conceal first hidden).Same (SlateOrm.conceal second hidden) := by
  refine ext_getElem? (fun ordinal => ?_)
  have here := same.sameColumns ordinal
  simp only [Row.get] at here
  rw [getElem?_map, getElem?_map, SlateOrm.conceal, SlateOrm.conceal,
    getElem?_foldl_null, getElem?_foldl_null]
  split
  · have nulls := congrArg (Option.map (fun _ => Value.null)) here
    rw [Option.map_map, Option.map_map] at nulls
    rw [Option.map_map, Option.map_map]
    exact nulls
  · exact here

section

variable [Platform]

/-! ## Opened plans -/

/-- What a query makes of the rows of its table, as far as it is shown. -/
def Query.answers (query : Query) (table : TableDef) (filter : Expr)
    (hidden : List Ordinal) (rows : List Row) : List Row :=
  (rows.filterMap (query.select table filter)).map (fun row => conceal row hidden)

section

variable
  {catalog : Catalog}
  {wellFormed : catalog.WellFormed}
  {snapshot : Snapshot}
  {table : TableDef}
  {tableRows : List Row}

variable {filter : Expr} {query : Query}

/--
A query is answered from the rows that its path finds, or it is refused because
it sorts too many of them.
-/
theorem openCursor_planned
    (limits : ExecutionLimits)
    (readable : ReadableTable wellFormed snapshot table tableRows)
    (stats : TableStats) (hidden : List Ordinal) {opened : Query}
    (sameCompute : opened.compute = query.compute)
    {plan : Plan}
    (isPlan : plan = query.planned table filter stats hidden)
    (trusted : ∀ record : CatalogRow catalog, record.StoredIn snapshot table →
      plan.access.Trusted (matchContext table filter query.projection stats
        query.sort query.compute) record.row)
    (short : opened.filter.widestInList ≤ limits.maxInValues) :
    (plan.sort.isSome ∧ limits.maxSortRows < (query.answers table filter hidden
        (tableRows.filter (plan.access.finds table))).length ∧
      openCursor limits snapshot table plan opened =
        .error (.sortTooLarge limits.maxSortRows)) ∨
    ¬(plan.sort.isSome ∧ limits.maxSortRows < (query.answers table filter hidden
        (tableRows.filter (plan.access.finds table))).length) ∧
    ∃ cursor rows, openCursor limits snapshot table plan opened = .ok cursor ∧
      cursor.collect = .ok rows ∧
      (rows.map Row.canonical).Perm ((query.answers table filter hidden
          (tableRows.filter (plan.access.finds table))).map Row.canonical) ∧
      (plan.sort = none → plan.access.inKeyOrder = true →
        rows.map Row.canonical = (query.answers table filter hidden
            ((query.order.arrange tableRows).filter
              (plan.access.finds table))).map Row.canonical) := by
  obtain ⟨rows, collected, perm, inOrder⟩ :=
    collect_planned stats isPlan readable trusted
  have isConcealed : plan.concealed = hidden := isPlan ▸ rfl
  have concealed : ∀ found : List Row,
      (found.map (fun row => conceal row hidden)).map Row.canonical =
        (found.map Row.canonical).map (fun values =>
          (conceal ⟨values⟩ hidden).canonical) :=
    map_canonical_of_respects (fun same => same.conceal hidden)
  have permuted : ∀ found : List Row, found.Perm rows →
      ((found.map (fun row => conceal row hidden)).map Row.canonical).Perm
        ((query.answers table filter hidden (tableRows.filter
          (plan.access.finds table))).map Row.canonical) := by
    intro found permutes
    rw [concealed, Query.answers, concealed]
    exact ((permutes.map _).trans perm).map _
  have isLength : (query.answers table filter hidden
      (tableRows.filter (plan.access.finds table))).length = rows.length := by
    have sameLength := (permuted rows (List.Perm.refl _)).length_eq
    rw [length_map, length_map, length_map] at sameLength
    exact sameLength.symm
  rw [openCursor, if_neg (Nat.not_lt.mpr short), isLength]
  dsimp only
  rw [sameCompute, isConcealed]
  cases isSort : plan.sort with
  | none =>
      refine Or.inr ⟨by rintro ⟨⟨⟩, -⟩, _,
        rows.map (fun row => conceal row hidden), rfl, ?_,
        permuted rows (List.Perm.refl _), fun _ isKeyOrder => ?_⟩
      · rw [Cursor.collect_map, collected]
        rfl
      · rw [concealed, inOrder isKeyOrder, Query.answers, concealed]
  | some keys =>
      dsimp only
      rw [Cursor.collectAtMost_of_collect collected]
      by_cases isFew : rows.length ≤ limits.maxSortRows
      · rw [if_pos isFew]
        refine Or.inr ⟨fun isMany => absurd isMany.2 (Nat.not_lt.mpr isFew), _,
          (rows.mergeSort (fun left right =>
            compareRows left right keys ≠ .gt)).map
              (fun row => conceal row hidden), rfl, ?_,
          permuted _ (mergeSort_perm ..), by rintro ⟨⟩⟩
        rw [Cursor.collect_map, Cursor.collect_ofList_self]
        rfl
      · rw [if_neg isFew]
        exact Or.inl ⟨rfl, Nat.lt_of_not_le isFew, rfl⟩

theorem Query.answers_of_found
    {found : Row → Bool}
    (all : ∀ row ∈ tableRows,
      filter.admits (extendRow row query.compute [] none) = true → found row = true)
    (hidden : List Ordinal) :
    query.answers table filter hidden (tableRows.filter found) =
      query.answers table filter hidden tableRows := by
  rw [answers, answers, filterMap_filter]
  refine congrArg (map _) (filterMap_congr (fun row member => ?_))
  split
  · rfl
  · next notFound =>
      rw [select]
      split
      · next admitted => exact absurd (all row member admitted) notFound
      · rfl

theorem Query.found_of_answers
    {found : Row → Bool} {hidden : List Ordinal}
    (sameLength : (query.answers table filter hidden (tableRows.filter found)).length =
        (query.answers table filter hidden tableRows).length) :
    ∀ row ∈ tableRows, filter.admits (extendRow row query.compute [] none) = true →
        found row = true := by
  intro row member admitted
  simp only [answers, length_map, length_filterMap_eq_countP] at sameLength
  rw [countP_eq_countP_filter_add tableRows _ found, Nat.left_eq_add,
    countP_eq_zero] at sameLength
  by_contra notFound
  refine sameLength row (mem_filter.mpr ⟨member, by simpa using notFound⟩) ?_
  rw [select]
  exact if_pos admitted ▸ rfl

end

omit [Platform] in
theorem sort_planned
    {query : Query}
    (unsorted : query.sort = [])
    (table : TableDef) (filter : Expr) (stats : TableStats)
    (hidden : List Ordinal) :
    (query.planned table filter stats hidden).sort = none := by
  rw [Query.planned, unsorted, planHinted.eq_def]
  dsimp only
  split <;> rfl

/-! ## Executed queries -/

namespace SecuredReads

variable
  (reads : SecuredReads)
  (context : SecurityContext)
  (table : TableDef)
  (query : Query)

/-- The rows that a caller may read with a query. -/
def rowFilter : Except KernelError Expr :=
  reads.security.rowFilterWith context table .read
    (if query.includeDeleted then .visible else .hidden)

/-- The query that is carried out: every column is every readable one. -/
def shown : Query :=
  match reads.security.readable context table with
  | none => query
  | some readable => readableProjection query readable

omit [Platform] in
theorem shown_eq :
    reads.shown context table query =
      { query with projection :=
        (reads.shown context table query).projection } := by
  rw [shown]
  split
  · rfl
  · rw [readableProjection]
    split <;> rfl

variable
  {reads}
  {context}
  {table}
  {query}

omit [Platform] in
theorem planSecured_eq_ok
    {plan : Plan}
    (planned : reads.planSecured context table query = .ok plan) :
    ∃ filter, reads.rowFilter context table query = .ok filter ∧
      plan = query.planned table (query.filter.andThen filter)
        (reads.statistics table) [] := by
  rw [planSecured] at planned
  obtain ⟨_, -, planned⟩ := bind_eq_ok.mp planned
  obtain ⟨_, -, planned⟩ := bind_eq_ok.mp planned
  split at planned
  · cases planned
  · obtain ⟨filter, isFilter, isPlan⟩ := bind_eq_ok.mp planned
    cases isPlan
    refine ⟨filter, isFilter, ?_⟩
    rw [Query.planned, ← concealed_planHinted]

omit [Platform] in
theorem plan_eq_ok
    {made : Plan}
    (planned : reads.plan context table query = .ok made) :
    ∃ filter, reads.rowFilter context table query = .ok filter ∧
      made = (reads.shown context table query).planned table
        (query.filter.andThen filter) (reads.statistics table)
        (reads.security.concealed context table) := by
  rw [plan] at planned
  obtain ⟨_, -, planned⟩ := bind_eq_ok.mp planned
  have isShown := reads.shown_eq context table query
  cases isReadable : reads.security.readable context table with
  | none =>
      rw [isReadable] at planned
      rw [shown, SecurityCatalog.concealed, isReadable]
      exact planSecured_eq_ok planned
  | some readable =>
      rw [isReadable] at planned
      obtain ⟨_, -, planned⟩ := bind_eq_ok.mp planned
      obtain ⟨secured, isSecured, isPlan⟩ := bind_eq_ok.mp planned
      cases isPlan
      have isQuery : reads.shown context table query =
          readableProjection query readable := by
        rw [shown, isReadable]
      obtain ⟨filter, isFilter, rfl⟩ := planSecured_eq_ok isSecured
      rw [isQuery] at isShown ⊢
      rw [isShown] at isFilter ⊢
      exact ⟨filter, isFilter, rfl⟩

variable (reads)
variable (context)
variable (table)
variable (query)

/-- What the caller of a query is answered, if every row is read. -/
def answers (filter : Expr) (tableRows : List Row) : List Row :=
  (reads.shown context table query).answers table (query.filter.andThen filter)
    (reads.security.concealed context table) tableRows

/--
A query is answered with what it makes of every row of its table, in some
order, or it is refused because it looks up or sorts too much.
-/
def AnswersFrom (snapshot : Snapshot) (filter : Expr) (tableRows : List Row) : Prop :=
  (reads.limits.maxInValues < query.filter.widestInList ∧
    reads.execute snapshot context table query =
      .error (.inListTooLarge reads.limits.maxInValues query.filter.widestInList)) ∨
  (reads.limits.maxSortRows <
      (reads.answers context table query filter tableRows).length ∧
    reads.execute snapshot context table query =
      .error (.sortTooLarge reads.limits.maxSortRows)) ∨
  ∃ cursor rows, reads.execute snapshot context table query = .ok cursor ∧
      cursor.collect = .ok rows ∧
      (rows.map Row.canonical).Perm
        ((reads.answers context table query filter tableRows).map Row.canonical)

variable {reads}
variable {context}
variable {table}
variable {query}

section

variable
  {catalog : Catalog}
  {wellFormed : catalog.WellFormed}
  {snapshot : Snapshot}
  {tableRows : List Row}
  (readable : ReadableTable wellFormed snapshot table tableRows)
  {made : Plan}
  (planned : reads.plan context table query = .ok made)
  {filter : Expr}
  (isFilter : reads.rowFilter context table query = .ok filter)

include readable planned isFilter

/--
A query whose path trusts what it reads is answered from every row exactly when
its path finds the rows that the filter admits, or it is refused.
-/
theorem answersFrom_iff_of_planned
    (trusted : ∀ record : CatalogRow catalog, record.StoredIn snapshot table →
      made.access.Trusted (matchContext table (query.filter.andThen filter)
        (reads.shown context table query).projection (reads.statistics table)
        query.sort query.compute) record.row) :
    reads.AnswersFrom context table query snapshot filter tableRows ↔
      reads.limits.maxInValues < query.filter.widestInList ∨
      (∀ row ∈ tableRows, (query.filter.andThen filter).admits
          (extendRow row query.compute [] none) = true →
        made.access.finds table row = true) ∨
      (made.sort.isSome = true ∧ reads.limits.maxSortRows <
        (reads.answers context table query filter
          (tableRows.filter (made.access.finds table))).length) := by
  obtain ⟨_, isFilter', isPlan⟩ := plan_eq_ok planned
  cases isFilter.symm.trans isFilter'
  have executed : reads.execute snapshot context table query =
      openCursor reads.limits snapshot table made query := by
    rw [execute, planned]
    rfl
  have isShown := shown_eq reads context table query
  have sameCompute : (reads.shown context table query).compute =
      query.compute := by
    rw [isShown]
  have sameSort : (reads.shown context table query).sort = query.sort := by
    rw [isShown]
  by_cases isLong : reads.limits.maxInValues < query.filter.widestInList
  · refine iff_of_true (Or.inl ⟨isLong, ?_⟩) (Or.inl isLong)
    rw [executed, openCursor, if_pos isLong]
  rw [← sameCompute, ← sameSort] at trusted
  have opens := openCursor_planned reads.limits readable
    (reads.statistics table) (reads.security.concealed context table)
    sameCompute.symm isPlan trusted (Nat.le_of_not_lt isLong)
  rw [AnswersFrom, executed, or_iff_right (fun both => isLong both.1),
    or_iff_right isLong]
  rcases opens with ⟨isSome, isMany, refused⟩ |
    ⟨notMany, cursor, rows, opened, collected, perm, -⟩
  · refine iff_of_true (Or.inl ⟨?_, refused⟩) (Or.inr ⟨isSome, isMany⟩)
    refine Nat.lt_of_lt_of_le isMany ?_
    rw [answers, Query.answers, Query.answers, length_map, length_map]
    exact ((filter_sublist).filterMap _).length_le
  · refine Iff.trans ?_ (or_iff_left notMany).symm
    constructor
    · rintro (⟨-, refused⟩ | ⟨cursor', rows', opened', collected', perm'⟩)
      · cases opened.symm.trans refused
      · cases opened.symm.trans opened'
        cases collected.symm.trans collected'
        have sameLength := (perm.symm.trans perm').length_eq
        rw [length_map, length_map] at sameLength
        rw [← sameCompute]
        exact Query.found_of_answers sameLength
    · intro all
      rw [← sameCompute] at all
      rw [Query.answers_of_found all] at perm
      exact Or.inr ⟨cursor, rows, opened, collected, perm⟩

/-- A query without computed columns is answered, unless an index is misread. -/
theorem answersFrom_of_planned
    (uncomputed : query.compute = [])
    (findable : Findable table (query.filter.andThen filter) query.compute tableRows) :
    reads.AnswersFrom context table query snapshot filter tableRows := by
  obtain ⟨_, isFilter', isPlan⟩ := plan_eq_ok planned
  cases isFilter.symm.trans isFilter'
  have sameCompute : (reads.shown context table query).compute =
      query.compute := by
    rw [shown_eq]
  refine (answersFrom_iff_of_planned readable planned isFilter (fun _ _ =>
    Access.trusted_of_uncomputed uncomputed)).mpr (Or.inr (Or.inl ?_))
  intro row member admitted
  refine finds_of_findable _ isPlan readable (sameCompute.trans uncomputed)
    (sameCompute ▸ findable) member ?_
  rw [sameCompute]
  exact admitted

end

end SecuredReads

/--
Whatever hint a query comes with and whatever the statistics are, it is
answered from every row exactly when its path finds the rows that the filter
admits, or it is refused, if a computed column that is read off an index is
what the query takes it for.
-/
theorem answersFrom_iff
    {tables : List TableDef}
    (built : ∀ table ∈ tables, ∃ builder : TableBuilder, builder.build = .ok table)
    {catalog : Catalog}
    (made : Catalog.fromTables tables = .ok catalog)
    {snapshot : Snapshot}
    (consistent : (catalog.layout
      (Catalog.wellFormed_of_fromTables built made)).Consistent
        (catalog.view snapshot.get))
    {table : TableDef}
    (inCatalog : table ∈ catalog.tables)
    {tableRows : List Row}
    (isRead : readTable snapshot table = .ok tableRows)
    {reads : SecuredReads} {context : SecurityContext} {query : Query}
    {plan : Plan}
    (planned : reads.plan context table query = .ok plan)
    {filter : Expr}
    (isFilter : reads.rowFilter context table query = .ok filter)
    (trusted : ∀ record : CatalogRow catalog, record.StoredIn snapshot table →
      plan.access.Trusted (matchContext table (query.filter.andThen filter)
        (reads.shown context table query).projection (reads.statistics table)
        query.sort query.compute) record.row) :
    reads.AnswersFrom context table query snapshot filter tableRows ↔
      reads.limits.maxInValues < query.filter.widestInList ∨
      (∀ row ∈ tableRows, (query.filter.andThen filter).admits
          (extendRow row query.compute [] none) = true →
        plan.access.finds table row = true) ∨
      (plan.sort.isSome = true ∧ reads.limits.maxSortRows <
        (reads.answers context table query filter
          (tableRows.filter (plan.access.finds table))).length) :=
  SecuredReads.answersFrom_iff_of_planned ⟨inCatalog, consistent, isRead⟩
    planned isFilter trusted

end

/-! ## Poems that are searched for -/

section

local instance poemPlatform : Platform := asciiPlatform

/-- Reads without grants, whose statistics prefer nothing. -/
def indifferentReads : SecuredReads where
  security := {}
  statistics _ := indifferentStats
  limits := {}

/-- A search of the poems' words by their index. -/
def poemSearch : Query where
  filter := .contains 1 ["b"]
  hint := some (.index 1)

/-- A poem is written. -/
def poemCalls (direction : Direction) : List Call :=
  [.write (.plain ⟨[poems direction]⟩) .superuser (poems direction)
    (.keyed (.insert ⟨[.i64 7, .str "a b"]⟩))]

/-- The store after the calls. -/
def poemStore (direction : Direction) : Option RecordState :=
  (poemCalls direction).foldlM Call.step (.begin ∅)

/-- Three poems, two of the same words. -/
def shelvedPoems : List Row :=
  [⟨[.i64 1, .str "a"]⟩, ⟨[.i64 2, .str "a"]⟩, ⟨[.i64 3, .str "b"]⟩]

/-- The store that the poems are inserted into. -/
def poemShelf : RecordState :=
  (Call.step (.begin ∅) (.write (.plain ⟨[poems .asc]⟩) .superuser (poems .asc)
    (.keyed (.insertMany shelvedPoems)))).getD (.begin ∅)

theorem built_poemTables
    (direction : Direction) :
    ∀ table ∈ [poems direction],
      ∃ builder : TableBuilder, builder.build = .ok table := by
  intro table member
  rw [mem_singleton.mp member]
  exact ⟨poemsBuilder direction, rfl⟩

theorem consistent_poems
    {direction : Direction} {state : RecordState}
    (isStore : poemStore direction = some state) :
    (Catalog.layout ⟨[poems direction]⟩ (Catalog.wellFormed_of_fromTables
      (built_poemTables direction) rfl)).Consistent
        (Catalog.view ⟨[poems direction]⟩ state.transaction.get) := by
  have unmanaged : Catalog.Unmanaged ⟨[poems direction]⟩ := by
    intro table member
    rw [mem_singleton.mp member]
    exact ⟨rfl, rfl⟩
  have names : ∀ call ∈ poemCalls direction, call.Names ⟨[poems direction]⟩ := by
    simp [poemCalls, Call.Names, RecordWrite.Named, RecordTransaction.plain]
  have fits : ∀ call ∈ poemCalls direction, ∀ row ∈ call.rows, row.Fits := by
    simp [poemCalls, Call.rows, RecordWrite.rows, KeyedWrite.rows, Row.Fits, Value.fits]
  exact (Catalog.keepsOnly_of_calls _ unmanaged names fits (.of_foldlM isStore)).keeps

/-- How many poems are stored, and how many a search finds. -/
def poemCounts (direction : Direction) : Option (Nat × Nat) := do
  let state ← poemStore direction
  let rows ← (readTable state.transaction (poems direction)).toOption
  let cursor ← (indifferentReads.execute state.transaction .superuser
    (poems direction) poemSearch).toOption
  let found ← cursor.collect.toOption
  return ((rows.filterMap (poemSearch.select (poems direction)
    poemSearch.filter)).length, found.length)

theorem eq_ok_of_toOption
    {ε α : Type} {outcome : Except ε α} {value : α}
    (found : outcome.toOption = some value) :
    outcome = .ok value := by
  cases outcome with
  | error refusal => cases found
  | ok held =>
      cases found
      rfl

theorem of_poemCounts
    {direction : Direction} {stored found : Nat}
    (counts : poemCounts direction = some (stored, found)) :
    ∃ state tableRows cursor rows, poemStore direction = some state ∧
        readTable state.transaction (poems direction) = .ok tableRows ∧
        indifferentReads.execute state.transaction .superuser
          (poems direction) poemSearch = .ok cursor ∧
        cursor.collect = .ok rows ∧
        (tableRows.filterMap (poemSearch.select (poems direction)
          poemSearch.filter)).length = stored ∧
        rows.length = found := by
  rw [poemCounts] at counts
  obtain ⟨state, isStore, counts⟩ := Option.bind_eq_some_iff.mp counts
  obtain ⟨tableRows, isRead, counts⟩ := Option.bind_eq_some_iff.mp counts
  obtain ⟨cursor, opened, counts⟩ := Option.bind_eq_some_iff.mp counts
  obtain ⟨rows, collected, counts⟩ := Option.bind_eq_some_iff.mp counts
  cases counts
  exact ⟨state, tableRows, cursor, rows, isStore, eq_ok_of_toOption isRead,
    eq_ok_of_toOption opened, eq_ok_of_toOption collected, rfl, rfl⟩

theorem planned_poemSearch
    (direction : Direction) :
    ∃ plan, indifferentReads.plan .superuser (poems direction) poemSearch = .ok plan ∧
      ∀ row, plan.access.finds (poems direction) row =
        decide (direction = .asc) :=
  ⟨_, rfl, fun _ => by cases direction <;> rfl⟩

/-- A poem is found by its word in an ascending index. -/
theorem answersFrom_poemSearch :
    ∃ state tableRows, poemStore .asc = some state ∧
      readTable state.transaction (poems .asc) = .ok tableRows ∧
      (tableRows.filterMap (poemSearch.select (poems .asc)
        poemSearch.filter)).length = 1 ∧
      indifferentReads.AnswersFrom .superuser (poems .asc) poemSearch
        state.transaction .true tableRows := by
  have counts : poemCounts .asc = some (1, 1) := by
    decide +kernel
  obtain ⟨state, tableRows, -, -, isStore, isRead, -, -, stored, -⟩ :=
    of_poemCounts counts
  obtain ⟨plan, planned, finds⟩ := planned_poemSearch .asc
  refine ⟨state, tableRows, isStore, isRead, stored, ?_⟩
  refine (answersFrom_iff (built_poemTables .asc) rfl
    (consistent_poems isStore) (mem_singleton.mpr rfl) isRead planned rfl
    (fun _ _ => Access.trusted_of_uncomputed rfl)).mpr (Or.inr (Or.inl ?_))
  exact fun row _ _ => finds row

/-- A poem is not found by its word in a descending index. -/
theorem not_answersFrom_descending :
    ¬∀ (_ : Platform) (tables : List TableDef) (built : ∀ table ∈ tables,
        ∃ builder : TableBuilder, builder.build = .ok table)
      (catalog : Catalog) (made : Catalog.fromTables tables = .ok catalog)
      (snapshot : Snapshot),
      (catalog.layout (Catalog.wellFormed_of_fromTables built
        made)).Consistent (catalog.view snapshot.get) →
      ∀ table ∈ catalog.tables, ∀ tableRows, readTable snapshot table = .ok tableRows →
        ∀ (reads : SecuredReads) (context : SecurityContext) (query : Query)
          (plan : Plan), reads.plan context table query = .ok plan →
          ∀ filter, reads.rowFilter context table query = .ok filter →
            reads.AnswersFrom context table query snapshot filter
              tableRows := by
  intro always
  have counts : poemCounts .desc = some (1, 0) := by
    decide +kernel
  obtain ⟨state, tableRows, cursor, rows, isStore, isRead, opened, collected,
    stored, found⟩ := of_poemCounts counts
  obtain ⟨plan, planned, -⟩ := planned_poemSearch .desc
  have answered := always poemPlatform [poems .desc] (built_poemTables .desc)
    ⟨[poems .desc]⟩ rfl state.transaction (consistent_poems isStore)
    (poems .desc) (mem_singleton.mpr rfl) tableRows isRead
    indifferentReads .superuser poemSearch plan planned .true rfl
  have isLength : (indifferentReads.answers .superuser (poems .desc)
      poemSearch .true tableRows).length = 1 := by
    rw [SecuredReads.answers, Query.answers, length_map]
    exact stored
  rcases answered with ⟨isLong, -⟩ | ⟨isMany, -⟩ |
    ⟨cursor', rows', opened', collected', perm⟩
  · exact absurd isLong (by decide)
  · rw [isLength] at isMany
    exact absurd isMany (by decide)
  · cases opened.symm.trans opened'
    cases collected.symm.trans collected'
    have sameLength := perm.length_eq
    rw [length_map, length_map, isLength, found] at sameLength
    cases sameLength

end

end SlateOrm
