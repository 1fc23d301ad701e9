import SlateOrm.GroupedJoins
import SlateOrm.RowKeys

namespace SlateOrm

open List

/-!
# Cursors of grouped reads

A read that returns groups has no use for a cursor, which names a row.  Which
grouped reads with a cursor are refused is shown by what an empty store answers:
a read that is refused there is refused on every store.
-/

/-! ## An empty store -/

/-- A view of a store that holds nothing. -/
def emptySnapshot : Snapshot := (RecordState.begin ∅).transaction

@[simp] theorem get_emptySnapshot
    (key : Bytes) :
    emptySnapshot.get key = none := by
  rw [emptySnapshot, RecordState.get_begin]
  exact Std.ExtTreeMap.getElem?_empty

@[simp] theorem scan_emptySnapshot
    (range : KeyRange) (order : ScanOrder) :
    emptySnapshot.scan range order = [] := by
  refine eq_nil_iff_forall_not_mem.mpr (fun entry member => ?_)
  have held := (mem_scan.mp member).2
  rw [get_emptySnapshot] at held
  cases held

/-- A path over an index of a table, if over any. -/
def Access.Indexed (table : TableDef) : Access → Prop
  | .indexScan index _ _ | .indexScans index _ _ => (table.index index).isSome
  | _ => True

theorem indexed_of_readsFrom
    {context : MatchContext} {access : Access}
    (reads : context.ReadsFrom access) :
    access.Indexed context.table := by
  have found {id : IndexId} {ranges : List KeyRange} {covering : Bool}
      (entries : context.ReadsEntries id ranges covering) :
      (context.table.index id).isSome := by
    obtain ⟨index, inTable, isNamed, -⟩ := entries.index
    rw [TableDef.index, find?_isSome]
    exact ⟨index, inTable, beq_iff_eq.mpr isNamed⟩
  cases access with
  | indexScan | indexScans => exact found reads
  | _ => trivial

theorem indexed_of_resumeAfter
    {table : TableDef} {plan later : Plan} {key : List Value}
    (resumed : plan.resumeAfter table key = .ok later) :
    later.access.Indexed table := by
  obtain ⟨-, access, isAccess, rfl⟩ := Plan.resumeAfter_eq_ok_iff.mp resumed
  have scans (range : KeyRange) : Access.Indexed table
        (if range.isEmpty = true then .nothing else .tableScan range) := by
    split <;> trivial
  cases isPath : plan.access with
  | indexScan | indexScans | pointGets =>
      rw [isPath] at isAccess
      cases isAccess
  | nothing =>
      rw [isPath] at isAccess
      cases isAccess
      trivial
  | tableScan range =>
      rw [isPath] at isAccess
      cases isAccess
      exact scans _
  | pointGet one =>
      rw [isPath] at isAccess
      have gets : access = .pointGet one ∨ access = .nothing := by
        obtain rfl := Except.ok.inj isAccess
        exact ite_eq_or_eq _ _ _
      rcases gets with rfl | rfl <;> trivial

section

variable [Platform]

/-- An empty store yields no row, on any path. -/
theorem source_emptySnapshot
    (shape : RowShape) (order : ScanOrder) {access : Access}
    (indexed : access.Indexed shape.table) :
    source emptySnapshot shape order access = .exhausted := by
  have ofIndex {id : IndexId} (found : (shape.table.index id).isSome)
      (ranges : List KeyRange) (covering : Bool) :
      indexSource emptySnapshot shape id ranges covering order =
        .exhausted := by
    obtain ⟨index, isIndex⟩ := Option.isSome_iff_exists.mp found
    have noEntries : ranges.flatMap
        (fun range => emptySnapshot.scan range order) = [] := by
      simp
    rw [indexSource, isIndex]
    dsimp only
    rw [noEntries]
    cases covering <;> rfl
  cases access with
  | nothing => rfl
  | pointGet key => rw [source, pointSource, readRowBody, get_emptySnapshot]
  | pointGets keys =>
      rw [source]
      induction keys with
      | nil => rfl
      | cons key rest ih =>
          rw [Cursor.ofList, materialisePoint, readRowBody, get_emptySnapshot]
          exact ih trivial
  | tableScan range =>
      rw [source, scan_emptySnapshot]
      rfl
  | indexScan id range covering => exact ofIndex indexed [range] covering
  | indexScans id ranges covering => exact ofIndex indexed _ covering

omit [Platform] in
@[simp] theorem Cursor.withWindow_exhausted
    {α : Type} (window : RowWindow) :
    (Cursor.exhausted : Cursor α).withWindow window = .exhausted := by
  rw [withWindow]
  cases window.limit with
  | none => cases window.offset <;> rfl
  | some limit =>
      dsimp only
      cases window.offset <;> cases limit <;> rfl

omit [Platform] in
theorem evaluateWindows_nil
    (windows : List Window) (limits : ExecutionLimits) :
    evaluateWindows windows [] limits = .ok [] := by
  have kept (specs : List (Window × List Nat)) (computed : List (List Value)) :
      specs.foldlM (fillSpec windows [] limits) computed = .ok computed := by
    induction specs with
    | nil => rfl
    | cons spec rest ih =>
        have noPartitions : spec.1.partitions [] = [] := by
          rw [Window.partitions, peerGroups, zipIdx_nil, map_nil, mergeSort_nil]
          rfl
        rw [foldlM_cons, fillSpec, noPartitions]
        exact ih
  rw [evaluateWindows]
  split
  · rfl
  · rw [kept]
    rfl

omit [Platform] in
theorem sortRows_exhausted
    {heap : BinaryHeap} (lawful : heap.Lawful) (limits : ExecutionLimits)
    (window : RowWindow) (keys : List SortKey) :
    sortRows heap limits window keys .exhausted = .ok [] := by
  rw [sortRows]
  cases window.limit with
  | none => cases limits.maxSortRows <;> simp [Cursor.collectAtMost]
  | some limit =>
      dsimp only
      split
      · have none_ := lawful.topN_subset (fun left right => compareRows left right keys)
          (usizeSaturatingAdd limit window.offset) ([] : List Row)
        exact congrArg Except.ok (subset_nil.mp none_)
      · rfl

namespace PagedQuery

/-- A query that looks up no more than a reader may. -/
def Short (query : PagedQuery) (limits : ExecutionLimits) : Prop :=
  query.filter.widestInList ≤ limits.maxInValues

variable
  {reads : SecuredReads}
  {context : SecurityContext}
  {table : TableDef}
  {query : PagedQuery}

variable {limits : ExecutionLimits} {plan : Plan}

theorem short_of_openPlan
    {heap : BinaryHeap} {snapshot : Snapshot} {cursor : Cursor Row}
    (opened : query.openPlan table heap limits snapshot plan = .ok cursor) :
    query.Short limits := by
  refine Nat.not_lt.mp (fun wide => ?_)
  rw [openPlan, openWindowed] at opened
  simp only [if_pos wide] at opened
  split at opened <;> cases opened

theorem openPlan_emptySnapshot
    {heap : BinaryHeap} (lawful : heap.Lawful)
    (indexed : plan.access.Indexed table) (short : query.Short limits) :
    query.openPlan table heap limits emptySnapshot plan = .ok .exhausted := by
  have noRows := source_emptySnapshot (rowShape table plan query.compute)
    plan.order indexed
  rw [openPlan, openWindowed]
  simp only [if_neg (Nat.not_lt.mpr short), noRows]
  split
  · cases plan.sort with
    | none => simp [Cursor.map]
    | some keys => simp [sortRows_exhausted lawful, Cursor.ofList, Cursor.map]
  · have nothing : (Cursor.exhausted : Cursor Row).collectAtMost
        (.windowTooLarge limits.maxWindowRows) limits.maxWindowRows = .ok [] := by
      cases limits.maxWindowRows <;> rfl
    rw [nothing]
    change (evaluateWindows query.window [] limits >>= fun widened => _) = _
    rw [evaluateWindows_nil]
    cases plan.sort with
    | none
    | some keys => simp [Cursor.ofList, Cursor.map]

omit [Platform] in
theorem indexed_of_planSecured
    (planned : query.planSecured reads context table = .ok plan) :
    plan.access.Indexed table := by
  have indexed (predicate : Expr) (projection : Projection) (hint : Option AccessHint) :
      (planHinted table predicate query.order projection
        (reads.statistics table) query.sort hint query.compute).access.Indexed
          table :=
    indexed_of_readsFrom (readsFrom_planHinted table predicate query.order
      projection (reads.statistics table) query.sort hint query.compute)
  cases isPaging : query.paging with
  | true =>
      obtain ⟨predicate, -, -, planned⟩ := (planSecured_eq_ok_iff isPaging).mp planned
      obtain ⟨-, isPlan⟩ := planPage_eq_ok_iff.mp planned
      split at isPlan
      · exact indexed_of_resumeAfter isPlan
      · subst isPlan
        exact indexed _ _ _
  | false =>
      rw [planSecured] at planned
      obtain ⟨predicate, -, planned⟩ := bind_eq_ok.mp planned
      split at planned
      · cases planned
      · rw [isPaging] at planned
        cases planned
        exact indexed _ _ _

omit [Platform] in
theorem indexed_of_plan
    (planned : query.plan reads context table = .ok plan) :
    plan.access.Indexed table := by
  rw [PagedQuery.plan] at planned
  obtain ⟨-, -, planned⟩ := bind_eq_ok.mp planned
  split at planned
  · exact indexed_of_planSecured planned
  · obtain ⟨-, -, planned⟩ := bind_eq_ok.mp planned
    obtain ⟨made, isMade, isPlan⟩ := bind_eq_ok.mp planned
    have isIndexed := indexed_of_planSecured isMade
    cases isPlan
    exact isIndexed

end PagedQuery

/-! ## Reads of several tables -/

namespace JoinReads

variable
  {reads : JoinReads}
  {context : SecurityContext}
  {table : TableDef}
  {query : PagedQuery}

variable {snapshot : Snapshot}

theorem planned_of_execute
    {cursor : Cursor Row}
    (opened : reads.execute snapshot context table query = .ok cursor) :
    query.Short reads.limits := by
  obtain ⟨plan, -, opened⟩ := bind_eq_ok.mp opened
  exact PagedQuery.short_of_openPlan opened

theorem execute_emptySnapshot
    {plan : Plan}
    (planned : reads.planQuery context table query = .ok plan)
    (short : query.Short reads.limits) :
    reads.execute emptySnapshot context table query = .ok .exhausted :=
  bind_eq_ok.mpr ⟨plan, planned, PagedQuery.openPlan_emptySnapshot
    reads.heap_lawful (PagedQuery.indexed_of_plan planned) short⟩

/-- What a plan of a join opens at once: both sides, unless it loops. -/
def Opens (reads : JoinReads) (join : Join) : JoinAlgorithm → Prop
  | .nestedLoop => join.left.Short reads.limits
  | .hash _ => join.left.Short reads.limits ∧ join.right.Short reads.limits

omit [Platform] in
theorem opens_of_query
    {join : Join} {build : Side} (held : (join.query build).Short reads.limits)
    (streamed : (join.query build.other).Short reads.limits) :
    reads.Opens join (.hash build) := by
  cases build with
  | left => exact ⟨held, streamed⟩
  | right => exact ⟨streamed, held⟩

variable
  {left right : TableDef}
  {join : Join}
  {plan : JoinPlan}

theorem opens_of_openJoin
    {rows : Cursor JoinedRow}
    (opened : reads.openJoin snapshot context left right join plan = .ok rows) :
    reads.Opens join plan.algorithm := by
  obtain ⟨state, isState, -⟩ := bind_eq_ok.mp opened
  rw [joinState] at isState
  cases isAlgorithm : plan.algorithm with
  | nestedLoop =>
      rw [isAlgorithm] at isState
      obtain ⟨outer, isOuter, -⟩ := bind_eq_ok.mp isState
      exact planned_of_execute isOuter
  | hash build =>
      rw [isAlgorithm] at isState
      obtain ⟨building, isBuilding, isState⟩ := bind_eq_ok.mp isState
      obtain ⟨built, -, isState⟩ := bind_eq_ok.mp isState
      obtain ⟨streamed, isStreamed, -⟩ := bind_eq_ok.mp isState
      exact opens_of_query (planned_of_execute isBuilding)
        (planned_of_execute isStreamed)

theorem hashRows_exhausted
    (schema : JoinSchema) (build : Side) :
    hashRows join schema reads.hashOrder build ⟨[], []⟩ [] .exhausted =
      .exhausted := by
  have noKeys : reads.hashOrder [] = [] := perm_nil.mp (reads.hashOrder_perm [])
  rw [hashRows]
  split
  · simp [BuildTable.unmatched, noKeys, Cursor.prepend]
  · rfl

/-- An empty store yields no pair of a join whose sides can be opened. -/
theorem openJoin_emptySnapshot
    (planned : reads.planJoin context left right join = .ok plan)
    (opens : reads.Opens join plan.algorithm) :
    reads.openJoin emptySnapshot context left right join plan = .ok .exhausted := by
  obtain ⟨-, -, planned⟩ := bind_eq_ok.mp planned
  obtain ⟨leftPlan, isLeft, planned⟩ := bind_eq_ok.mp planned
  obtain ⟨rightPlan, isRight, -⟩ := bind_eq_ok.mp planned
  have state : reads.joinState emptySnapshot context left right join plan =
      .ok .exhausted := by
    rw [joinState]
    cases isAlgorithm : plan.algorithm with
    | nestedLoop =>
        rw [isAlgorithm] at opens
        simp only [execute_emptySnapshot isLeft opens]
        rfl
    | hash build =>
        rw [isAlgorithm] at opens
        have held (columns : List Ordinal) (table : TableDef) (keep : Bool) :
            BuildTable.build .exhausted columns join.buildLimit table keep =
              .ok ⟨[], []⟩ := by
          rw [BuildTable.build]
          cases join.buildLimit <;> cases keep <;> rfl
        cases build with
        | left
        | right =>
            simp only [Side.other, Join.query, execute_emptySnapshot isLeft
              opens.1, execute_emptySnapshot isRight opens.2]
            change (BuildTable.build _ _ _ _ _ >>= _) = _
            rw [held]
            exact congrArg Except.ok (hashRows_exhausted _ _)
  rw [openJoin, state]
  simp only [bind, Except.bind, Cursor.withWindow_exhausted, Cursor.map]
  rfl

variable
  {tables : List TableDef}
  {chain : Chain}
  {schema : JoinSchema}

/-- A step that reads its table at once, for a query that looks up too much. -/
def OpensSteps (reads : JoinReads) (steps : List JoinStep)
    (plans : List JoinStepPlan) : Prop :=
  ∀ entry ∈ steps.zip plans, entry.2.algorithm ≠ .nestedLoop →
    entry.1.query.Short reads.limits

theorem opensSteps_of_runSteps
    {limit position : Nat} {steps : List JoinStep} {plans : List JoinStepPlan}
    {accumulated rows : List ChainRow}
    (ran : reads.runSteps snapshot context tables schema limit position steps
      plans accumulated = .ok rows) :
    reads.OpensSteps steps plans := by
  induction steps generalizing position plans accumulated with
  | nil =>
      rintro entry member
      cases member
  | cons step rest ih =>
      obtain ⟨table, -, ran⟩ := bind_eq_ok.mp ran
      obtain ⟨next, stepped, ran⟩ := bind_eq_ok.mp ran
      obtain ⟨-, -, ran⟩ := bind_eq_ok.mp ran
      cases plans with
      | nil =>
          rintro entry member
          cases member
      | cons plan others =>
          intro entry member atOnce
          rcases mem_cons.mp member with rfl | later
          · cases isAlgorithm : plan.algorithm with
            | nestedLoop => exact absurd isAlgorithm atOnce
            | hash build =>
                rw [head?_cons] at stepped
                simp only [isAlgorithm, runStep] at stepped
                obtain ⟨cursor, opened, -⟩ := bind_eq_ok.mp stepped
                exact planned_of_execute opened
          · exact ih ran entry later atOnce

/-- Steps of a chain whose tables can be opened add nothing to no rows. -/
theorem runSteps_emptySnapshot
    {limit position : Nat} {earlier : List Plan} {steps : List JoinStep}
    {plans : List JoinStepPlan}
    (planned : reads.planSteps context tables chain position earlier steps = .ok plans)
    (opens : reads.OpensSteps steps plans) :
    reads.runSteps emptySnapshot context tables schema limit position steps
      plans [] = .ok [] := by
  induction steps generalizing position earlier plans with
  | nil => rfl
  | cons step rest ih =>
      rw [planSteps] at planned
      obtain ⟨table, isTable, planned⟩ := bind_eq_ok.mp planned
      obtain ⟨plan, isPlan, planned⟩ := bind_eq_ok.mp planned
      obtain ⟨probe, _, planned⟩ := bind_eq_ok.mp planned
      obtain ⟨algorithm, _, planned⟩ := bind_eq_ok.mp planned
      obtain ⟨later, isLater, isPlans⟩ := bind_eq_ok.mp planned
      cases isPlans
      have ran : reads.runStep emptySnapshot context table step schema
          position [] algorithm = .ok [] := by
        cases isAlgorithm : algorithm with
        | nestedLoop => rfl
        | hash build =>
            have short := opens (step, ⟨plan, algorithm⟩)
              (mem_cons_self ..) (by simp [isAlgorithm])
            rw [runStep, execute_emptySnapshot isPlan short]
            cases isKept : step.joinType.preserves .left <;>
              simp [bind, Except.bind, Cursor.collect, hashStep, isKept] <;> rfl
      rw [runSteps, isTable]
      simp only [bind, Except.bind, head?_cons, ran, tail_cons]
      exact ih isLater (fun entry member => opens entry (mem_cons_of_mem _ member))

theorem pagedChain_of_runChain
    {plan : ChainPlan} {rows : List ChainRow}
    (unlimited : chain.limit = none)
    (ran : reads.runChain snapshot context tables chain plan schema = .ok rows) :
    chain.paging = false ∧ chain.first.Short reads.limits ∧
      reads.OpensSteps chain.steps plan.steps := by
  obtain ⟨first, -, ran⟩ := bind_eq_ok.mp ran
  obtain ⟨paged, isPaged, ran⟩ := bind_eq_ok.mp ran
  obtain ⟨cursor, opened, ran⟩ := bind_eq_ok.mp ran
  obtain ⟨started, -, ran⟩ := bind_eq_ok.mp ran
  obtain ⟨-, -, ran⟩ := bind_eq_ok.mp ran
  obtain ⟨joined, ran, -⟩ := bind_eq_ok.mp ran
  rw [pagedChain, unlimited] at isPaged
  cases isPaging : chain.paging with
  | false =>
      rw [isPaging] at isPaged
      cases isPaged
      exact ⟨rfl, planned_of_execute opened, opensSteps_of_runSteps ran⟩
  | true =>
      rw [isPaging] at isPaged
      simp only [Bool.not_true, Bool.false_eq_true, if_false] at isPaged
      split at isPaged
      · cases isPaged
      · split at isPaged <;> cases isPaged

theorem runChain_emptySnapshot
    {plan : ChainPlan}
    (planned : reads.planChain context tables chain schema = .ok plan)
    (unpaged : chain.paging = false)
    (short : chain.first.Short reads.limits)
    (opens : reads.OpensSteps chain.steps plan.steps) :
    reads.runChain emptySnapshot context tables chain plan schema = .ok [] := by
  obtain ⟨-, -, planned⟩ := bind_eq_ok.mp planned
  obtain ⟨table, isTable, planned⟩ := bind_eq_ok.mp planned
  obtain ⟨first, isFirst, planned⟩ := bind_eq_ok.mp planned
  obtain ⟨steps, isSteps, isPlan⟩ := bind_eq_ok.mp planned
  cases isPlan
  have ran := @runSteps_emptySnapshot _ reads context tables chain schema
    chain.buildLimit 1 [first] chain.steps steps isSteps opens
  have isPaged : pagedChain chain table = .ok chain := by
    rw [pagedChain, unpaged]
    rfl
  have checked : checkSize [] chain.buildLimit table = .ok () := by
    rw [checkSize, length_nil, if_neg (Nat.not_lt_zero _)]
  rw [runChain, isTable]
  simp only [bind, Except.bind, isPaged, execute_emptySnapshot isFirst short,
    Cursor.collect, map_nil, checked, ran]
  cases chain.limit <;> simp [RowWindow.of, pure, Except.pure]

end JoinReads

end

/-! ## Reads that are refused -/

/-- What groups are made of: the rows of a table, of a join or of a chain. -/
inductive GroupedSource where
  | table (table : TableDef) (query : PagedQuery)
  | join (left right : TableDef) (join : Join)
  | chain (tables : List TableDef) (chain : Chain)

/--
A join that is grouped whatever its cursors are, but for those that a side goes
on after: its sides compute nothing, the grouping names what there is, and there
is a plan whose sides do not look up too much.
-/
structure Join.Accepted (reads : JoinReads) (context : SecurityContext)
    (left right : TableDef) (join : Join) (grouping : Grouping) : Prop where
  computesNothing : join.left.compute = [] ∧ join.right.compute = []
  inSpace : ∀ column ∈ grouping.named,
    column < ((JoinSchema.of left right).computing join.compute.length).width
  planned : ∃ plan, reads.planJoin context left right
      (narrowedJoin join (.of left right) grouping) = .ok plan ∧
    reads.Opens join plan.algorithm

/-- A chain that is grouped whatever cursors it carries itself. -/
structure Chain.Accepted (reads : JoinReads) (context : SecurityContext)
    (tables : List TableDef) (chain : Chain) (grouping : Grouping) : Prop where
  computesNothing : ∀ query ∈ chain.queries, query.compute = []
  inSpace : ∀ column ∈ grouping.named, column <
      ((JoinSchema.overTables tables).computing chain.compute.length).width
  planned :
    let schema := (JoinSchema.overTables tables).computing chain.compute.length
    let narrowed := narrowedChain chain schema grouping
    ∃ plan, reads.planChain context tables narrowed schema = .ok plan ∧
      narrowed.first.Short reads.limits ∧
      reads.OpensSteps narrowed.steps plan.steps

namespace GroupedSource

/-- A read that carries a cursor, wherever it sits. -/
def CarriesCursor : GroupedSource → Prop
  | .table _ query => query.after.isSome
  | .join _ _ request =>
      request.after.isSome ∨ request.left.after.isSome ∨ request.right.after.isSome
  | .chain _ request =>
      request.after.isSome ∨ ∃ query ∈ request.queries, query.after.isSome

/-- A read with a cursor that is refused: one table, or a paged chain. -/
def Guarded (reads : JoinReads) (context : SecurityContext)
    (grouping : Grouping) : GroupedSource → Prop
  | .table _ _ => True
  | .join left right request => ¬request.Accepted reads context left right grouping
  | .chain tables request =>
      request.paging = true ∨ ¬request.Accepted reads context tables grouping

variable [Platform]

/-- The groups of a read. -/
def groups (reads : JoinReads) (context : SecurityContext)
    (grouping : Grouping) (snapshot : Snapshot) :
    GroupedSource → Except KernelError (List Group)
  | .table one query => reads.grouped context snapshot one query grouping
  | .join left right request =>
      reads.groupedJoin context snapshot left right request grouping
  | .chain tables request => reads.groupedChain context snapshot tables request grouping

end GroupedSource

section

variable
  {reads : JoinReads}
  {context : SecurityContext}
  {grouping : Grouping}

theorem noSideComputes_eq_ok_iff
    {inputs : List PagedQuery} {name : String} :
    noSideComputes inputs name = .ok () ↔ ∀ query ∈ inputs, query.compute = [] := by
  constructor
  · intro checked query member
    obtain ⟨place, inside, rfl⟩ := getElem_of_mem member
    have passed := checkEach_eq_ok checked (inputs[place], place)
      (mk_mem_zipIdx_iff_getElem?.mpr (getElem?_eq_getElem inside))
    refine isEmpty_iff.mp (Classical.byContradiction (fun computes => ?_))
    simp only [if_neg computes] at passed
    cases passed
  · intro nothing
    refine checkEach_of_forall (fun entry member => ?_)
    have inInputs := mem_of_getElem? (mk_mem_zipIdx_iff_getElem?.mp member)
    rw [if_pos (isEmpty_iff.mpr (nothing entry.1 inInputs))]

theorem validateGrouping_eq_ok_iff
    {schema : JoinSchema} {name : String} :
    validateGrouping schema grouping name = .ok () ↔
      ∀ column ∈ grouping.named, column < schema.width := by
  constructor
  · intro checked column member
    have passed := checkEach_eq_ok checked column (mem_ascending.mpr member)
    refine Classical.byContradiction (fun outside => ?_)
    simp only [if_neg outside] at passed
    cases passed
  · intro inSpace
    refine checkEach_of_forall (fun column member => ?_)
    rw [if_pos (inSpace column (mem_ascending.mp member))]

variable [Platform]

theorem refused_grouped
    (snapshot : Snapshot) (table : TableDef) {query : PagedQuery}
    (carries : query.after.isSome) :
    Refused (reads.grouped context snapshot table query grouping) := by
  obtain ⟨key, isAfter⟩ := Option.isSome_iff_exists.mp carries
  rw [JoinReads.grouped, JoinReads.planGrouped, noCursorOnGroups, isAfter]
  exact ⟨_, rfl⟩

variable {left right : TableDef} {tables : List TableDef}

theorem accepted_of_groupedJoin
    {snapshot : Snapshot} {join : Join} {groups : List Group}
    (grouped : reads.groupedJoin context snapshot left right join grouping =
      .ok groups) :
    join.Accepted reads context left right grouping := by
  obtain ⟨_, computes, grouped⟩ := bind_eq_ok.mp grouped
  obtain ⟨_, inSpace, grouped⟩ := bind_eq_ok.mp grouped
  obtain ⟨⟨narrowed, plan⟩, isPlan, grouped⟩ := bind_eq_ok.mp grouped
  obtain ⟨rows, opened, _⟩ := bind_eq_ok.mp grouped
  obtain ⟨made, planned, isMade⟩ := bind_eq_ok.mp isPlan
  cases isMade
  have nothing := noSideComputes_eq_ok_iff.mp computes
  have opens := JoinReads.opens_of_openJoin opened
  refine ⟨⟨nothing _ (by simp), nothing _ (by simp)⟩,
    validateGrouping_eq_ok_iff.mp inSpace, plan, planned, ?_⟩
  cases isAlgorithm : plan.algorithm <;> rw [isAlgorithm] at opens <;>
    exact opens

theorem Join.Accepted.groupedJoin
    {join : Join} (accepted : join.Accepted reads context left right grouping) :
    ∃ groups, reads.groupedJoin context emptySnapshot left right join grouping =
      .ok groups := by
  obtain ⟨plan, planned, opens⟩ := accepted.planned
  have computes (name : String) :=
    @noSideComputes_eq_ok_iff [join.left, join.right] name |>.mpr (by
      simp [accepted.computesNothing])
  have inSpace (name : String) :=
    @validateGrouping_eq_ok_iff grouping _ name |>.mpr accepted.inSpace
  have narrowedOpens : reads.Opens
      (narrowedJoin join (.of left right) grouping) plan.algorithm := by
    cases isAlgorithm : plan.algorithm <;> rw [isAlgorithm] at opens <;>
      exact opens
  have opened := JoinReads.openJoin_emptySnapshot planned narrowedOpens
  refine ⟨Grouper.finish grouping [], ?_⟩
  rw [JoinReads.groupedJoin, computes, inSpace, JoinReads.planGroupedJoin, planned]
  simp only [bind, Except.bind, pure, Except.pure, opened]
  rfl

theorem accepted_of_groupedChain
    {snapshot : Snapshot} {chain : Chain} {groups : List Group}
    (grouped : reads.groupedChain context snapshot tables chain grouping = .ok groups) :
    chain.paging = false ∧ chain.Accepted reads context tables grouping := by
  obtain ⟨_, computes, grouped⟩ := bind_eq_ok.mp grouped
  obtain ⟨_, inSpace, grouped⟩ := bind_eq_ok.mp grouped
  obtain ⟨⟨narrowed, plan⟩, isPlan, grouped⟩ := bind_eq_ok.mp grouped
  obtain ⟨rows, ran, _⟩ := bind_eq_ok.mp grouped
  obtain ⟨made, planned, isMade⟩ := bind_eq_ok.mp isPlan
  cases isMade
  obtain ⟨unpaged, short, opens⟩ := JoinReads.pagedChain_of_runChain rfl ran
  exact ⟨unpaged, noSideComputes_eq_ok_iff.mp computes,
    validateGrouping_eq_ok_iff.mp inSpace, plan, planned, short, opens⟩

theorem Chain.Accepted.groupedChain
    {chain : Chain} (accepted : chain.Accepted reads context tables grouping)
    (unpaged : chain.paging = false) :
    ∃ groups, reads.groupedChain context emptySnapshot tables chain grouping =
      .ok groups := by
  obtain ⟨plan, planned, short, opens⟩ := accepted.planned
  have computes (name : String) :=
    @noSideComputes_eq_ok_iff chain.queries name |>.mpr accepted.computesNothing
  have inSpace (name : String) :=
    @validateGrouping_eq_ok_iff grouping _ name |>.mpr accepted.inSpace
  have ran := JoinReads.runChain_emptySnapshot planned unpaged short opens
  refine ⟨Grouper.finish grouping [], ?_⟩
  rw [JoinReads.groupedChain, computes, inSpace, JoinReads.planGroupedChain, planned]
  simp only [bind, Except.bind, pure, Except.pure, ran]
  rfl

/--
A grouped read that carries a cursor is refused on every store exactly when it
reads one table, or a chain that says itself that it is paged, or would not be
grouped whatever cursor it carried itself.
-/
theorem GroupedSource.refused_iff_guarded
    (reads : JoinReads) (context : SecurityContext) (grouping : Grouping)
    {source : GroupedSource} (carries : source.CarriesCursor) :
    (∀ snapshot, Refused (source.groups reads context grouping snapshot)) ↔
      source.Guarded reads context grouping := by
  cases source with
  | table table query =>
      exact ⟨fun _ => trivial, fun _ snapshot => refused_grouped snapshot table carries⟩
  | join left right join =>
      constructor
      · intro refused accepted
        exact not_refused_iff.mpr accepted.groupedJoin (refused emptySnapshot)
      · intro guarded snapshot
        refine Classical.not_not.mp (fun served => ?_)
        obtain ⟨groups, grouped⟩ := not_refused_iff.mp served
        exact guarded (accepted_of_groupedJoin grouped)
  | chain tables chain =>
      constructor
      · intro refused
        refine or_iff_not_imp_left.mpr (fun unpaged accepted => ?_)
        exact not_refused_iff.mpr (accepted.groupedChain
          (Bool.eq_false_iff.mpr unpaged)) (refused emptySnapshot)
      · intro guarded snapshot
        refine Classical.not_not.mp (fun served => ?_)
        obtain ⟨groups, grouped⟩ := not_refused_iff.mp served
        obtain ⟨unpaged, accepted⟩ := accepted_of_groupedChain grouped
        rcases guarded with paged | refused
        · rw [unpaged] at paged
          cases paged
        · exact refused accepted

end

/-- Reads under no limits, of tables that are all expected to be alike. -/
def indifferentJoinReads : JoinReads where
  toSecuredReads := indifferentReads
  heap := .searched
  heap_lawful := BinaryHeap.lawful_searched
  leftNoLarger _ _ := true
  loopCheaper _ _ _ _ _ := false
  stepLoopCheaper _ _ _ _ _ := false
  hashOrder := id
  hashOrder_perm := List.Perm.refl

/-- The poems with the same id, from a poem on. -/
def poemPairs : Join where
  on := [⟨0, 0⟩]
  limit := some 10
  after := some [.i64 7]
  paging := true

/-- How many poems there are of each id. -/
def poemsById : Grouping where
  group := [0]
  aggregates := [.count]

/-- Whether the pairs of poems are refused. -/
theorem refused_iff_guarded_poemPairs :
    let _ : Platform := asciiPlatform
    let source := GroupedSource.join (poems .asc) (poems .asc) poemPairs
    (∀ snapshot, Refused
        (source.groups indifferentJoinReads .superuser poemsById snapshot)) ↔
      source.Guarded indifferentJoinReads .superuser poemsById := by
  intro _ source
  exact source.refused_iff_guarded indifferentJoinReads .superuser poemsById
    (Or.inl rfl)

/-- A join that goes on after a row is grouped from its first row on. -/
theorem not_refused_poemPairs :
    ¬∀ (_ : Platform) (reads : JoinReads) (context : SecurityContext)
        (grouping : Grouping) (source : GroupedSource),
      source.CarriesCursor → ∀ snapshot,
          Refused (source.groups reads context grouping snapshot) := by
  intro always
  let _ : Platform := asciiPlatform
  have isServed : ∃ groups, (GroupedSource.join (poems .asc) (poems .asc)
      poemPairs).groups indifferentJoinReads .superuser poemsById
        poemShelf.transaction = .ok groups :=
    ⟨_, by with_unfolding_all rfl⟩
  exact not_refused_iff.mpr isServed (always asciiPlatform indifferentJoinReads
    .superuser poemsById (.join (poems .asc) (poems .asc) poemPairs) (Or.inl rfl) _)

end SlateOrm
