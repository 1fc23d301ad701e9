import SlateOrm.QueryReads
import SlateOrm.WindowedReads
import SlateOrm.Windows

namespace SlateOrm

open List Option MatchContext

/-!
# Pages of reads

A query may be read a page at a time: each page goes on after the primary key
that the one before it ended on.  Only a path over the primary key can be gone
on with, in its own order.
-/

/-! ## Queries for pages -/

/-- A query for some of its rows, or for what windows compute of them. -/
structure PagedQuery extends Query where
  limit : Option Nat := none
  offset : Nat := 0
  window : List Window := []
  after : Option (List Value) := none
  paging : Bool := false

/-- The columns of a projection, and those that windows read. -/
def widened (projection : Projection) (windows : List Window) : Projection :=
  if windows.isEmpty then
    projection
  else
    match projection with
    | .all => .all
    | .columns ordinals => .columns (ordinals ++ windows.flatMap Window.columns)

/-! ## Plans of pages -/

/-- Read what an access path reads after a key. -/
def Access.resumeAfter (access : Access) (order : ScanOrder)
    (table : TableDef) (boundary : Bytes) : Except KernelError Access :=
  match access with
  | .tableScan range =>
      .ok (.tableScan (range.intersect (match order with
        | .ascending => ⟨.excluded boundary, .unbounded⟩
        | .descending => ⟨.unbounded, .excluded boundary⟩)))
  | .pointGet one =>
      let key := Keys.rowKey table one
      let past :=
        match order with
        | .ascending => (compare key boundary).isGT
        | .descending => (compare key boundary).isLT
      .ok (if past then .pointGet one else .nothing)
  | .nothing => .ok .nothing
  | .indexScan index _ _ | .indexScans index _ _ =>
      .error (.invalidCursor table.name
        ("this plan walks index " ++ toString index.toNat ++
          " and yields rows in that index's order, where a primary key does " ++
          "not say where the page ended. Drop the ORDER BY, or page by offset"))
  | .pointGets _ =>
      .error (.invalidCursor table.name
        ("this plan reads a set of keys named by an `IN`, which is already " ++
          "bounded and is not a range to resume inside"))

/-- Read what a plan reads after the row with a primary key. -/
def Plan.resumeAfter (plan : Plan) (table : TableDef) (key : List Value) :
    Except KernelError Plan :=
  let width := table.primaryKey.length
  if key.length ≠ width then
    .error (.invalidCursor table.name
      ("a cursor is a whole primary key: `" ++ table.name ++ "` has " ++
        toString width ++ " key column" ++ (if width = 1 then "" else "s") ++
        ", and this one has " ++ toString key.length))
  else do
    let access ← plan.access.resumeAfter plan.order table (Keys.rowKey table key)
    return { plan with
      access :=
        match access with
        | .tableScan range => if range.isEmpty then .nothing else .tableScan range
        | access => access }

namespace SecuredReads

variable
  (reads : SecuredReads)
  (context : SecurityContext)
  (table : TableDef)

/-- The filter that a query runs under, if its caller may run it. -/
def secured (query : Query) : Except KernelError Expr := do
  reads.authorizeRead context table query
  checkDecimalScales table query.compute
  match query.filter.columnTypeConflict
      (fun column => (table.column column).map ColumnDef.type) with
  | some (left, right) => .error (.comparisonTypeMismatch table.name left right)
  | none => do
      let rowFilter ← reads.rowFilter context table query
      return query.filter.andThen rowFilter

end SecuredReads

namespace PagedQuery

variable
  (reads : SecuredReads)
  (context : SecurityContext)
  (table : TableDef)
  (query : PagedQuery)

/-- Refuse a query that names a column the caller does not read. -/
def refuseUnreadable (readable : ColumnSet) (action : String) :
    Except KernelError Unit := do
  SlateOrm.refuseUnreadable table query.toQuery readable action
  if (query.window.flatMap Window.columns).any (fun column =>
      decide (column < table.columns.length ∧ column ∉ readable)) then
    .error (.columnsWithheld table.name action)

/-- A query that asks for every column asks for those the caller reads. -/
def readableProjection (readable : ColumnSet) : PagedQuery :=
  { query with toQuery := SlateOrm.readableProjection query.toQuery readable }

/-- What a page of a query is read by: the rows, unless an index is asked for. -/
def pagePlan (predicate : Expr) : Plan :=
  planHinted table predicate query.order query.projection
    (reads.statistics table) query.sort (query.hint.or (some .tableScan))
    query.compute

/-- Plan a page of a query that runs under a filter. -/
def planPage (predicate : Expr) : Except KernelError Plan :=
  let plan := query.pagePlan reads table predicate
  if plan.sort.isSome then
    .error (.invalidCursor table.name
      ("this query is sorted into an order the primary key does not give, so " ++
        "the rows are re-ordered after they are read and a key does not say " ++
        "where the page ended. Order by the primary key, or page by offset"))
  else
    match query.after with
    | some after => plan.resumeAfter table after
    | none => .ok plan

/-- Plan a query under the filter of its caller. -/
def planSecured : Except KernelError Plan := do
  let predicate ← reads.secured context table query.toQuery
  if (query.paging || query.after.isSome) && !query.window.isEmpty then
    -- The blanks are those of the source, whose lines are not joined.
    let blanks := String.ofList (List.replicate 26 ' ')
    .error (.invalidCursor table.name
      ("this read computes a window, which is defined over every selected " ++
        "row." ++ blanks ++ "A page is not every selected row, so the window " ++
        "would restart on each" ++ blanks ++ "one and report a number for " ++
        "the page as if it were for the query"))
  else if query.paging then
    query.planPage reads table predicate
  else
    return planHinted table predicate query.order
      (widened query.projection query.window) (reads.statistics table)
      query.sort query.hint query.compute

/-- Plan a query of a caller. -/
def plan : Except KernelError Plan := do
  reads.security.authorize context table .read
  match reads.security.readable context table with
  | none => query.planSecured reads context table
  | some readable => do
      query.refuseUnreadable table readable "this read"
      let plan ← (query.readableProjection readable).planSecured reads context table
      return { plan with concealed := reads.security.concealed context table }

variable [Platform]

/--
Carry out a plan of a query.  Windows are computed over every row, which is
held, and the rows are sorted and cut after that.
-/
def openPlan (heap : BinaryHeap) (limits : ExecutionLimits)
    (snapshot : Snapshot) (plan : Plan) : Except KernelError (Cursor Row) :=
  let shown : RowWindow := ⟨query.limit, query.offset⟩
  if query.window.isEmpty then
    openWindowed heap limits snapshot table plan query.toQuery shown
  else
    let widest := query.filter.widestInList
    if limits.maxInValues < widest then
      .error (.inListTooLarge limits.maxInValues widest)
    else do
      let rows ← (source snapshot (rowShape table plan query.compute) plan.order
          plan.access).collectAtMost (.windowTooLarge limits.maxWindowRows)
            limits.maxWindowRows
      let widened ← evaluateWindows query.window rows limits
      let sorted :=
        match plan.sort with
        | some keys =>
            widened.mergeSort (fun left right => compareRows left right keys ≠ .gt)
        | none => widened
      return ((Cursor.ofList (fun row => .ok (some row)) sorted).withWindow
        shown).map (fun row => conceal row plan.concealed)

/-- The rows of a query of a caller. -/
def execute (heap : BinaryHeap) (snapshot : Snapshot) :
    Except KernelError (Cursor Row) := do
  let plan ← query.plan reads context table
  query.openPlan table heap reads.limits snapshot plan

/-- A page of the rows of a query: the first, or one after a key. -/
def page (heap : BinaryHeap) (snapshot : Snapshot)
    (after : Option (List Value)) : Except KernelError (Cursor Row) :=
  { query with after := after, paging := true }.execute reads context table
    heap snapshot

end PagedQuery

/-! ## Pages that are refused -/

/-- A call that fails. -/
def Refused {α : Type} (result : Except KernelError α) : Prop :=
  ∃ failure, result = .error failure

theorem not_refused_iff
    {α : Type} {result : Except KernelError α} :
    ¬Refused result ↔ ∃ value, result = .ok value := by
  cases result with
  | error failure
  | ok value => simp [Refused]

/-- A path in the order of the primary key. -/
def Access.Resumable : Access → Prop
  | .indexScan .. | .indexScans .. | .pointGets _ => False
  | _ => True

theorem Access.exists_resumeAfter_iff
    {access : Access} {order : ScanOrder} {table : TableDef}
    {boundary : Bytes} :
    (∃ later, access.resumeAfter order table boundary = .ok later) ↔
      access.Resumable := by
  cases access with
  | pointGet | tableScan | nothing => exact ⟨fun _ => trivial, fun _ => ⟨_, rfl⟩⟩
  | indexScan | indexScans | pointGets => exact ⟨nofun, False.elim⟩

theorem Plan.resumeAfter_eq_ok_iff
    {plan later : Plan} {table : TableDef} {key : List Value} :
    plan.resumeAfter table key = .ok later ↔ key.length = table.primaryKey.length ∧
        ∃ access, plan.access.resumeAfter plan.order table
            (Keys.rowKey table key) = .ok access ∧
          later = { plan with
            access :=
              match access with
              | .tableScan range => if range.isEmpty then .nothing else .tableScan range
              | access => access } := by
  rw [resumeAfter]
  split
  · next short => exact ⟨nofun, fun resumed => absurd resumed.1 short⟩
  · next whole =>
      rw [bind_eq_ok]
      simp only [not_not.mp whole, true_and]
      refine exists_congr (fun access => and_congr_right (fun _ => ?_))
      exact ⟨fun isLater => (Except.ok.inj isLater).symm,
        fun isLater => congrArg Except.ok isLater.symm⟩

theorem Plan.exists_resumeAfter_iff
    {plan : Plan} {table : TableDef} {key : List Value} :
    (∃ later, plan.resumeAfter table key = .ok later) ↔
      key.length = table.primaryKey.length ∧ plan.access.Resumable := by
  simp only [resumeAfter_eq_ok_iff, exists_and_left]
  rw [← Access.exists_resumeAfter_iff]
  refine and_congr_right (fun _ => ⟨?_, ?_⟩)
  · rintro ⟨later, access, isAccess, -⟩
    exact ⟨access, isAccess⟩
  · rintro ⟨access, isAccess⟩
    exact ⟨_, access, isAccess, rfl⟩

theorem Plan.sort_resumeAfter
    {plan later : Plan} {table : TableDef} {key : List Value}
    (resumed : plan.resumeAfter table key = .ok later) :
    later.sort = plan.sort := by
  obtain ⟨_, _, _, rfl⟩ := resumeAfter_eq_ok_iff.mp resumed
  rfl

namespace PagedQuery

variable
  {reads : SecuredReads}
  {context : SecurityContext}
  {table : TableDef}
  {query : PagedQuery}

variable (reads context table query) in
/-- The filter that a query runs under, if its caller may name its columns. -/
def admitted : Except KernelError Expr := do
  reads.security.authorize context table .read
  match reads.security.readable context table with
  | none => pure ()
  | some readable => query.refuseUnreadable table readable "this read"
  reads.secured context table query.toQuery

variable (reads context table query) in
/-- The query that is carried out: every column is every readable one. -/
def shown : PagedQuery :=
  { query with toQuery := reads.shown context table query.toQuery }

theorem secured_readableProjection
    (readable : ColumnSet) :
    reads.secured context table (SlateOrm.readableProjection query.toQuery readable) =
      reads.secured context table query.toQuery := by
  rw [SlateOrm.readableProjection]
  split <;> rfl

theorem planSecured_eq_ok_iff
    (isPaging : query.paging = true)
    {plan : Plan} :
    query.planSecured reads context table = .ok plan ↔ ∃ predicate,
        reads.secured context table query.toQuery = .ok predicate ∧ query.window = [] ∧
            query.planPage reads table predicate = .ok plan := by
  rw [planSecured, bind_eq_ok]
  refine exists_congr (fun predicate => and_congr_right (fun _ => ?_))
  cases query.window with
  | nil => simp [isPaging]
  | cons window rest =>
      rw [isPaging, if_pos rfl]
      exact ⟨nofun, nofun⟩

/-- A paged query of a caller is planned as it is shown to it. -/
theorem plan_eq_ok_iff
    (isPaging : query.paging = true)
    {plan : Plan} :
    query.plan reads context table = .ok plan ↔
      ∃ predicate, query.admitted reads context table = .ok predicate ∧
        query.window = [] ∧ ∃ made,
            (query.shown reads context table).planPage reads table predicate =
              .ok made ∧
            plan = { made with
              concealed := if (reads.security.readable context table).isSome then
                  reads.security.concealed context table
                else
                  made.concealed } := by
  rw [PagedQuery.plan, admitted, shown, SecuredReads.shown]
  cases reads.security.readable context table with
  | none =>
      simp only [bind_eq_ok, planSecured_eq_ok_iff isPaging]
      constructor
      · rintro ⟨_, allowed, predicate, isFilter, noWindow, isPlan⟩
        exact ⟨predicate, ⟨_, allowed, isFilter⟩, noWindow, plan, isPlan, rfl⟩
      · rintro ⟨predicate, ⟨_, allowed, isFilter⟩, noWindow, made, isPlan, rfl⟩
        exact ⟨_, allowed, predicate, isFilter, noWindow, isPlan⟩
  | some readable =>
      have isSecured (made : Plan) :
          (query.readableProjection readable).planSecured reads context table =
              .ok made ↔
            ∃ predicate, reads.secured context table query.toQuery = .ok predicate ∧
                query.window = [] ∧
                  (query.readableProjection readable).planPage reads table
                    predicate = .ok made := by
        rw [← secured_readableProjection readable]
        exact @planSecured_eq_ok_iff reads context table
          (query.readableProjection readable) isPaging made
      simp only [bind_eq_ok, isSecured]
      constructor
      · rintro ⟨_, allowed, _, named, made, ⟨predicate, isFilter, noWindow,
          isMade⟩, isPlan⟩
        exact ⟨predicate, ⟨_, allowed, _, named, isFilter⟩, noWindow, made,
          isMade, (Except.ok.inj isPlan).symm⟩
      · rintro ⟨predicate, ⟨_, allowed, _, named, isFilter⟩, noWindow, made,
          isMade, rfl⟩
        exact ⟨_, allowed, _, named, made, ⟨predicate, isFilter, noWindow, isMade⟩, rfl⟩

theorem planPage_eq_ok_iff
    {predicate : Expr} {plan : Plan} :
    query.planPage reads table predicate = .ok plan ↔
      (query.pagePlan reads table predicate).sort = none ∧
        match query.after with
        | some key =>
            (query.pagePlan reads table predicate).resumeAfter table key = .ok plan
        | none => query.pagePlan reads table predicate = plan := by
  rw [planPage]
  cases (query.pagePlan reads table predicate).sort with
  | some keys => exact ⟨nofun, nofun⟩
  | none =>
      cases query.after with
      | some key
      | none => simp

variable [Platform]

theorem exists_openPlan_iff
    (heap : BinaryHeap) (limits : ExecutionLimits) (snapshot : Snapshot)
    (noWindow : query.window = [])
    {plan : Plan}
    (unsorted : plan.sort = none)
    (concealed : List Ordinal) :
    (∃ cursor, query.openPlan table heap limits snapshot
        { plan with concealed := concealed } = .ok cursor) ↔
      query.filter.widestInList ≤ limits.maxInValues := by
  rw [openPlan, noWindow, openWindowed, unsorted]
  change (∃ cursor, (if limits.maxInValues < query.filter.widestInList then _
    else _) = Except.ok cursor) ↔ _
  split
  · next wide =>
      refine ⟨?_, fun short => absurd wide (Nat.not_lt.mpr short)⟩
      rintro ⟨_, ⟨⟩⟩
  · next short => exact ⟨fun _ => Nat.not_lt.mp short, fun _ => ⟨_, rfl⟩⟩

/--
A page is served when the query runs without windows and sorts, and a later one
when its path can be gone on with from a whole primary key.
-/
theorem exists_page_iff
    (heap : BinaryHeap) (snapshot : Snapshot) (after : Option (List Value)) :
    (∃ cursor, query.page reads context table heap snapshot after = .ok cursor) ↔
      ∃ predicate, query.admitted reads context table = .ok predicate ∧
        query.window = [] ∧
        query.filter.widestInList ≤ reads.limits.maxInValues ∧
        ((query.shown reads context table).pagePlan reads table predicate).sort = none ∧
        ∀ key, after = some key → key.length = table.primaryKey.length ∧
            ((query.shown reads context table).pagePlan reads table
              predicate).access.Resumable := by
  simp only [page, execute, bind_eq_ok]
  have opened (plan : Plan) (noWindow : query.window = [])
      (unsorted : plan.sort = none) :=
    @exists_openPlan_iff table { query with after := after, paging := true } _
      heap reads.limits snapshot noWindow plan unsorted
  have planned (plan : Plan) := @plan_eq_ok_iff reads context table
    { query with after := after, paging := true } rfl plan
  have planPage (predicate : Expr) (plan : Plan) := @planPage_eq_ok_iff reads table
      ({ query with after := after, paging := true }.shown reads context table)
      predicate plan
  simp only [planned, planPage]
  constructor
  · rintro ⟨cursor, plan, ⟨predicate, isFilter, noWindow, made,
      ⟨unsorted, isMade⟩, rfl⟩, isOpen⟩
    cases after with
    | none =>
        obtain rfl : pagePlan _ _ _ _ = made := isMade
        exact ⟨predicate, isFilter, noWindow,
          (opened _ noWindow unsorted _).mp ⟨cursor, isOpen⟩, unsorted, nofun⟩
    | some key =>
        have sameSort := Plan.sort_resumeAfter isMade
        refine ⟨predicate, isFilter, noWindow, (opened made noWindow
          (sameSort.trans unsorted) _).mp ⟨cursor, isOpen⟩, unsorted, ?_⟩
        rintro _ ⟨⟩
        exact Plan.exists_resumeAfter_iff.mp ⟨made, isMade⟩
  · rintro ⟨predicate, isFilter, noWindow, short, unsorted, resumes⟩
    cases after with
    | none =>
        obtain ⟨cursor, isOpen⟩ := (opened _ noWindow unsorted _).mpr short
        exact ⟨cursor, _, ⟨predicate, isFilter, noWindow, _,
          ⟨unsorted, rfl⟩, rfl⟩, isOpen⟩
    | some key =>
        obtain ⟨made, isMade⟩ := Plan.exists_resumeAfter_iff.mpr (resumes key rfl)
        have sameSort := Plan.sort_resumeAfter isMade
        obtain ⟨cursor, isOpen⟩ :=
          (opened made noWindow (sameSort.trans unsorted) _).mpr short
        exact ⟨cursor, _, ⟨predicate, isFilter, noWindow, made,
          ⟨unsorted, isMade⟩, rfl⟩, isOpen⟩

end PagedQuery

/-! ## Paths of pages -/

/-- What a path of a query is estimated for. -/
def Candidate.estimate (candidate : Candidate) (context : MatchContext)
    (sort : List SortKey) (order : ScanOrder) : Estimated where
  predicate := context.predicate
  compute := context.compute
  access := candidate.access
  mustSort := !sort.isEmpty &&
    !candidate.satisfies sort order context.constraints.pinned

/-- A path that yields the rows of a query in their requested order. -/
def Candidate.InOrder (candidate : Candidate) (context : MatchContext)
    (sort : List SortKey) (order : ScanOrder) : Prop :=
  (candidate.estimate context sort order).mustSort = false

/--
A query whose first page is read by a path that no page goes on with: over the
index it asks for, or over the keys that its filter names, when they cost less
than the range of the primary key.
-/
def PagedQuery.Strands (query : PagedQuery) (table : TableDef)
    (stats : TableStats) (predicate : Expr) : Prop :=
  let context := matchContext table predicate query.projection stats
    query.sort query.compute
  let estimate (candidate : Candidate) :=
    candidate.estimate context query.sort query.order
  predicate.conjuncts.any unsatisfiable = false ∧
    match query.hint with
    | some (.index id) =>
        ∃ index ∈ table.indexes, index.id = id ∧
          ∃ candidate, matchIndex context index = some candidate ∧
            candidate.InOrder context query.sort query.order ∧
              prunedAccess candidate.access ≠ .nothing
    | _ =>
        ∃ candidate, matchPointGets table context.constraints = some candidate ∧
            candidate.InOrder context query.sort query.order ∧
              stats.cheaper (estimate candidate) (estimate
                (matchPrimaryKey table context.constraints context.ordered)) = true

section

variable
  {table : TableDef}
  {predicate : Expr}
  {order : ScanOrder}
  {projection : Projection}
  {stats : TableStats}
  {sort : List SortKey}
  {hint : Option AccessHint}
  {compute : List Scalar}

theorem planHinted_of_candidates
    {context : MatchContext}
    (isContext : matchContext table predicate projection stats sort compute = context)
    (satisfiable : predicate.conjuncts.any unsatisfiable = false)
    {first : Candidate} {rest : List Candidate}
    (considered : candidates context hint = first :: rest)
    {chosen : Candidate}
    (isChosen : cheapest stats
      (fun candidate => candidate.estimate context sort order) first rest = chosen) :
    (planHinted table predicate order projection stats sort hint
      compute).access = prunedAccess chosen.access ∧
    ((planHinted table predicate order projection stats sort hint
      compute).sort = none ↔ chosen.InOrder context sort order) := by
  have sorts (mustSort : Bool) : (if mustSort = true then some sort else none) = none ↔
        mustSort = false := by
    cases mustSort <;> simp
  subst isContext isChosen
  rw [planHinted.eq_def]
  dsimp only
  rw [if_neg (Bool.eq_false_iff.mp satisfiable)]
  split
  · next none_ => exact absurd none_ (candidates_ne_nil _ _)
  · next best others considered' =>
      obtain ⟨rfl, rfl⟩ := cons.inj (considered.symm.trans considered')
      exact ⟨rfl, sorts _⟩

theorem resumable_matchPrimaryKey
    (constraints : Constraints) (ordered : Bool) :
    (prunedAccess (matchPrimaryKey table constraints ordered).access).Resumable := by
  have scans (range : KeyRange) : (prunedAccess (.tableScan range)).Resumable := by
    rcases prunedAccess_cases (.tableScan range) with
      isSame | isNothing
    · rw [isSame]
      trivial
    · rw [isNothing]
      trivial
  rw [matchPrimaryKey]
  split
  · split
    · exact scans _
    · trivial
  · exact scans _

theorem resumable_matchIndex_iff
    {context : MatchContext} {index : IndexDef} {candidate : Candidate}
    (matched : matchIndex context index = some candidate) :
    (prunedAccess candidate.access).Resumable ↔
      prunedAccess candidate.access = .nothing := by
  obtain ⟨ranges, covering, isRanges⟩ := entryRanges_of_matchIndex matched
  rcases prunedAccess_cases candidate.access with
    isSame | isNothing
  · rw [isSame]
    cases isAccess : candidate.access with
    | indexScan | indexScans => exact ⟨False.elim, nofun⟩
    | _ =>
        rw [isAccess] at isRanges
        cases isRanges
  · rw [isNothing]
    exact ⟨fun _ => rfl, fun _ => trivial⟩

/-- The paths that a named index is considered for are its own. -/
theorem candidates_index
    {context : MatchContext}
    (distinct : (context.table.indexes.map IndexDef.id).Nodup) (id : IndexId) :
    (∃ index ∈ context.table.indexes, index.id = id ∧
      ∃ candidate, matchIndex context index = some candidate ∧
        candidates context (some (.index id)) = [candidate]) ∨
    (∀ index ∈ context.table.indexes, index.id = id → matchIndex context index = none) ∧
      candidates context (some (.index id)) =
        [matchPrimaryKey context.table context.constraints context.ordered] := by
  have named (index : IndexDef) : index ∈ context.table.indexes.filter
      (fun index => index.id == id) ↔
        index ∈ context.table.indexes ∧ index.id = id := by
    rw [mem_filter, beq_iff_eq]
  have apart : ((context.table.indexes.filter
      (fun index => index.id == id)).map IndexDef.id).Nodup :=
    distinct.sublist (filter_sublist.map _)
  rw [candidates.eq_def]
  dsimp only
  generalize context.table.indexes.filter (fun index => index.id == id) =
    found at named apart
  cases found with
  | nil =>
      refine Or.inr ⟨fun index member isNamed => ?_, rfl⟩
      exact absurd ((named index).mpr ⟨member, isNamed⟩) not_mem_nil
  | cons index rest =>
      -- One id names one index.
      have only : ∀ other ∈ index :: rest, other = index := by
        intro other member
        refine inj_on_of_nodup_map apart member (mem_cons_self ..) ?_
        rw [((named other).mp member).2, ((named index).mp (mem_cons_self ..)).2]
      have isAlone : rest = [] := by
        refine eq_nil_iff_forall_not_mem.mpr (fun other member => ?_)
        rw [only other (mem_cons_of_mem _ member)] at member
        exact (nodup_cons.mp apart).1 (mem_map_of_mem member)
      subst isAlone
      obtain ⟨inTable, isNamed⟩ := (named index).mp (mem_cons_self ..)
      cases matched : matchIndex context index with
      | none =>
          refine Or.inr ⟨fun other member isNamed => ?_, ?_⟩
          · rw [only other ((named other).mpr ⟨member, isNamed⟩), matched]
          · rw [filterMap_cons_none matched, filterMap_nil]
      | some candidate =>
          refine Or.inl ⟨index, inTable, isNamed, candidate, matched, ?_⟩
          rw [filterMap_cons_some matched, filterMap_nil]

theorem access_planHinted_of_unsatisfiable
    (refuted : predicate.conjuncts.any unsatisfiable = true) :
    (planHinted table predicate order projection stats sort hint
      compute).access = .nothing := by
  rw [planHinted.eq_def]
  dsimp only
  rw [if_pos refuted]

theorem not_resumable_matchPointGets
    {constraints : Constraints} {candidate : Candidate}
    (matched : matchPointGets table constraints = some candidate) :
    ¬(prunedAccess candidate.access).Resumable := by
  obtain ⟨keys, _, rfl⟩ := map_eq_some_iff.mp matched
  exact id

variable {query : PagedQuery}

/-- A page without a hint strands its reader when the keys named cost less. -/
theorem PagedQuery.strands_iff_of_tableScan
    (reads : SecuredReads)
    (satisfiable : predicate.conjuncts.any unsatisfiable = false)
    (scans : query.hint = none ∨ query.hint = some .tableScan) :
    query.Strands table (reads.statistics table) predicate ↔
      (query.pagePlan reads table predicate).sort = none ∧
        ¬(query.pagePlan reads table predicate).access.Resumable := by
  have isHint : query.hint.or (some .tableScan) = some .tableScan := by
    rcases scans with isHint | isHint <;> rw [isHint] <;> rfl
  generalize isContext : matchContext table predicate query.projection
    (reads.statistics table) query.sort query.compute = context
  generalize isPrimary :
    matchPrimaryKey table context.constraints context.ordered = primary
  have considered : candidates context (some .tableScan) =
      primary :: (matchPointGets table context.constraints).toList := by
    subst isPrimary isContext
    rfl
  have strands : query.Strands table (reads.statistics table) predicate ↔
      ∃ candidate, matchPointGets table context.constraints = some candidate ∧
        candidate.InOrder context query.sort query.order ∧
          (reads.statistics table).cheaper
            (candidate.estimate context query.sort query.order)
            (primary.estimate context query.sort query.order) = true := by
    subst isPrimary isContext
    rw [Strands]
    rcases scans with isHint | isHint <;> simp only [isHint, satisfiable, true_and]
  have planned {chosen : Candidate} :=
    @planHinted_of_candidates table predicate query.order query.projection
      (reads.statistics table) query.sort (some .tableScan) query.compute
      context isContext satisfiable _ _ considered chosen
  have goesOn : (prunedAccess primary.access).Resumable :=
    isPrimary ▸ resumable_matchPrimaryKey _ _
  rw [strands, pagePlan, isHint]
  cases isPoints : matchPointGets table context.constraints with
  | none =>
      rw [isPoints] at planned
      obtain ⟨isAccess, -⟩ := planned rfl
      rw [isAccess]
      exact ⟨nofun, fun stuck => absurd goesOn stuck.2⟩
  | some points =>
      rw [isPoints] at planned
      have stuck := not_resumable_matchPointGets isPoints
      cases isCheaper : (reads.statistics table).cheaper
          (points.estimate context query.sort query.order)
          (primary.estimate context query.sort query.order) with
      | true =>
          obtain ⟨isAccess, unsorted⟩ := @planned points (by
            simp only [toList_some, cheapest, isCheaper, if_true])
          rw [isAccess, unsorted]
          simp [isCheaper, stuck]
      | false =>
          obtain ⟨isAccess, -⟩ := @planned primary (by
            simp [cheapest, isCheaper])
          rw [isAccess]
          simp [isCheaper, goesOn]

/-- A page by an index strands its reader when the index is in order. -/
theorem PagedQuery.strands_iff_of_index
    (reads : SecuredReads) (distinct : (table.indexes.map IndexDef.id).Nodup)
    (satisfiable : predicate.conjuncts.any unsatisfiable = false)
    {id : IndexId}
    (isHint : query.hint = some (.index id)) :
    query.Strands table (reads.statistics table) predicate ↔
      (query.pagePlan reads table predicate).sort = none ∧
        ¬(query.pagePlan reads table predicate).access.Resumable := by
  generalize isContext : matchContext table predicate query.projection
    (reads.statistics table) query.sort query.compute = context
  have isTable : context.table = table := by
    rw [← isContext]
    rfl
  have strands : query.Strands table (reads.statistics table) predicate ↔
      ∃ index ∈ table.indexes, index.id = id ∧
        ∃ candidate, matchIndex context index = some candidate ∧
          candidate.InOrder context query.sort query.order ∧
            prunedAccess candidate.access ≠ .nothing := by
    subst isContext
    rw [Strands]
    simp only [isHint, satisfiable, true_and]
  rw [strands, pagePlan, isHint, Option.or]
  subst isTable
  have planned {first : Candidate}
      (considered : candidates context (some (.index id)) = [first]) :=
    @planHinted_of_candidates context.table predicate query.order
      query.projection (reads.statistics context.table) query.sort
      (some (.index id)) query.compute context isContext satisfiable first []
      considered first rfl
  rcases candidates_index distinct id with
    ⟨index, inTable, isNamed, candidate, matched, considered⟩ |
      ⟨missing, considered⟩
  · obtain ⟨isAccess, unsorted⟩ := planned considered
    rw [isAccess, unsorted, resumable_matchIndex_iff matched]
    constructor
    · rintro ⟨other, inTable', isNamed', candidate', matched', inOrder, reads⟩
      obtain rfl := inj_on_of_nodup_map distinct inTable inTable'
        (isNamed.trans isNamed'.symm)
      obtain rfl := some.inj (matched.symm.trans matched')
      exact ⟨inOrder, reads⟩
    · rintro ⟨inOrder, reads⟩
      exact ⟨index, inTable, isNamed, candidate, matched, inOrder, reads⟩
  · obtain ⟨isAccess, -⟩ := planned considered
    rw [isAccess]
    constructor
    · rintro ⟨index, inTable, isNamed, candidate, matched, -⟩
      rw [missing index inTable isNamed] at matched
      cases matched
    · exact fun stuck => absurd (resumable_matchPrimaryKey _ _) stuck.2

/--
A query strands its reader exactly when its first page is read without a sort,
by a path that cannot be gone on with.
-/
theorem PagedQuery.strands_iff
    (reads : SecuredReads) (distinct : (table.indexes.map IndexDef.id).Nodup) :
    query.Strands table (reads.statistics table) predicate ↔
      (query.pagePlan reads table predicate).sort = none ∧
        ¬(query.pagePlan reads table predicate).access.Resumable := by
  cases satisfiable : predicate.conjuncts.any unsatisfiable with
  | true =>
      rw [Strands, pagePlan, access_planHinted_of_unsatisfiable satisfiable,
        satisfiable]
      exact ⟨nofun, fun stuck => absurd trivial stuck.2⟩
  | false =>
      cases isHint : query.hint with
      | none => exact strands_iff_of_tableScan reads satisfiable (Or.inl isHint)
      | some hint =>
          cases hint with
          | tableScan =>
              exact strands_iff_of_tableScan reads satisfiable (Or.inr isHint)
          | index id => exact strands_iff_of_index reads distinct satisfiable isHint

end

/-! ## Pages that agree -/

/--
A query that its caller may run, that computes no window and looks up no more
than it may, and whose first page no other goes on with.
-/
def PagedQuery.Stranded (query : PagedQuery) (reads : SecuredReads)
    (context : SecurityContext) (table : TableDef) : Prop :=
  ∃ predicate, query.admitted reads context table = .ok predicate ∧ query.window = [] ∧
    query.filter.widestInList ≤ reads.limits.maxInValues ∧
    (query.shown reads context table).Strands table (reads.statistics table) predicate

section

variable [Platform]

/--
The first page of a query is refused exactly when the page after a key is,
unless the query is stranded.
-/
theorem PagedQuery.refused_iff_refused
    (heap : BinaryHeap) (reads : SecuredReads) (snapshot : Snapshot)
    (context : SecurityContext) {table : TableDef}
    (wellFormed : table.WellFormed)
    (query : PagedQuery) {key : List Value}
    (whole : key.length = table.primaryKey.length) :
    (Refused (query.page reads context table heap snapshot none) ↔
      Refused (query.page reads context table heap snapshot (some key))) ↔
        ¬query.Stranded reads context table := by
  have strands (predicate : Expr) :=
    @strands_iff table predicate (query.shown reads context table) reads
      wellFormed.indexIds
  have first := not_refused_iff.trans
    (@exists_page_iff reads context table query _ heap snapshot none)
  have later := not_refused_iff.trans
    (@exists_page_iff reads context table query _ heap snapshot (some key))
  constructor
  · rintro agree ⟨predicate, isFilter, noWindow, short, isStranded⟩
    obtain ⟨unsorted, stuck⟩ := (strands predicate).mp isStranded
    have served := first.mpr ⟨predicate, isFilter, noWindow, short, unsorted, nofun⟩
    obtain ⟨predicate', isFilter', -, -, -, resumes⟩ := later.mp (mt agree.mpr served)
    cases isFilter.symm.trans isFilter'
    exact stuck (resumes key rfl).2
  · intro goesOn
    refine not_iff_not.mp ?_
    rw [first, later]
    constructor
    · rintro ⟨predicate, isFilter, noWindow, short, unsorted, -⟩
      refine ⟨predicate, isFilter, noWindow, short, unsorted, ?_⟩
      rintro _ ⟨⟩
      refine ⟨whole, by_contra (fun stuck => goesOn ?_)⟩
      exact ⟨predicate, isFilter, noWindow, short,
        (strands predicate).mpr ⟨unsorted, stuck⟩⟩
    · rintro ⟨predicate, isFilter, noWindow, short, unsorted, -⟩
      exact ⟨predicate, isFilter, noWindow, short, unsorted, nofun⟩

end

/-- The first ten poems. -/
def poemPage : PagedQuery where
  limit := some 10

/-- The pages of the poems agree. -/
theorem refused_iff_refused_poemPage :
    let _ : Platform := asciiPlatform
    let page := poemPage.page indifferentReads .superuser (poems .asc) .searched
      poemShelf.transaction
    (Refused (page none) ↔ Refused (page (some [.i64 7]))) ↔
      ¬poemPage.Stranded indifferentReads .superuser (poems .asc) := by
  intro _ page
  exact poemPage.refused_iff_refused .searched indifferentReads _ .superuser
    (TableBuilder.build_wellFormed (built_poems .asc)) rfl

/-- A page of the poems with a word that are found by its index. -/
def poemSearchPage : PagedQuery where
  toQuery := poemSearch
  limit := some 10

/-- The first poems with a word are served, and the next are refused. -/
theorem not_refused_iff_refused_poemSearchPage :
    ¬∀ (_ : Platform) (heap : BinaryHeap) (reads : SecuredReads)
        (snapshot : Snapshot) (context : SecurityContext) (table : TableDef)
        (query : PagedQuery) (key : List Value),
      table.WellFormed → key.length = table.primaryKey.length →
        (Refused (query.page reads context table heap snapshot none) ↔
          Refused (query.page reads context table heap snapshot (some key))) := by
  intro agree
  let _ : Platform := asciiPlatform
  have isServed : ∃ rows, poemSearchPage.page indifferentReads .superuser
      (poems .asc) .searched poemShelf.transaction none = .ok rows :=
    ⟨_, by with_unfolding_all rfl⟩
  exact not_refused_iff.mpr isServed ((agree asciiPlatform .searched indifferentReads
    _ .superuser (poems .asc) poemSearchPage [.i64 7]
    (TableBuilder.build_wellFormed (built_poems .asc)) rfl).mpr ⟨_, rfl⟩)

end SlateOrm
