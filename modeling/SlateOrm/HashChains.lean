import SlateOrm.HashJoins

namespace SlateOrm

open List JoinReads

/-!
# Chains of hash joins

A step that reads its table at once returns, in some order, every pair of a row
held so far and one of the table that agree, and each row of a preserved side
that is in no pair.  A chain of such steps is the joins of its tables from the
left.
-/

section

variable [Platform]

/-! ## Steps -/

namespace JoinStep

variable
  (step : JoinStep)
  (schema : JoinSchema)

/-- Whether a row held so far and one of the next table are a pair. -/
def agree (held : ChainRow) (next : Row) : Bool :=
  agreeOn step.on (chainView schema held none) next.get &&
    admitsPair step.having (chainView schema held (some next))

/-- The rows of a step: its pairs, and what is in none of them. -/
def rows (position : Nat) (held : List ChainRow) (nexts : List Row) : List ChainRow :=
  OuterJoin.joined (step.agree schema) (fun row next => row.extended (some next))
    (fun row => if step.joinType.preserves .left then [row.extended none] else [])
    (fun next =>
      if step.joinType.preserves .right then
        [.absentBefore next position]
      else
        [])
    held nexts

variable {step schema}

/-- A row of the next table is paired with the held ones that agree with it. -/
theorem stepMatches_eq
    (held : List ChainRow) (next : Row) :
    stepMatches step schema held next =
      held.zipIdx.filter (fun entry => step.agree schema entry.1 next) := by
  rw [stepMatches]
  split
  · next isKey =>
      refine (filter_eq_nil_iff.mpr (fun entry _ agrees => ?_)).symm
      obtain ⟨key, -, isKey'⟩ :=
        exists_joinValues_iff.mpr (Bool.and_eq_true _ _ ▸ agrees).1
      cases isKey.symm.trans isKey'
  · next key isKey =>
      refine filter_congr (fun entry _ => ?_)
      rw [agree, Bool.eq_iff_iff, Bool.and_eq_true, Bool.and_eq_true,
        beq_iff_eq, ← exists_joinValues_iff, isKey]
      simp

/-- A row is in a pair of the next table's when its place is. -/
theorem contains_stepMatches
    {held : List ChainRow} {row : ChainRow} {place : Nat}
    (isHeld : held[place]? = some row)
    (next : Row) :
    ((stepMatches step schema held next).map Prod.snd).contains place =
      step.agree schema row next := by
  rw [stepMatches_eq, Bool.eq_iff_iff, contains_iff_mem, mem_map]
  constructor
  · rintro ⟨⟨other, _⟩, member, rfl⟩
    obtain ⟨inPlace, agrees⟩ := mem_filter.mp member
    cases isHeld.symm.trans (mem_zipIdx_iff_getElem?.mp inPlace)
    exact agrees
  · intro agrees
    exact ⟨(row, place), mem_filter.mpr
      ⟨mem_zipIdx_iff_getElem?.mpr isHeld, agrees⟩, rfl⟩

/-- Streamed past the rows held so far, a table gives those of the step. -/
theorem hashStep_perm
    (position : Nat) (held : List ChainRow) (nexts : List Row) :
    (hashStep step schema position held nexts).Perm
      (step.rows schema position held nexts) := by
  have paired : ∀ next, (stepMatches step schema held next).map Prod.fst =
      held.filter (fun row => step.agree schema row next) := by
    intro next
    rw [stepMatches_eq]
    exact OuterJoin.map_fst_filter_zipIdx (fun row => step.agree schema row next) held
  have unpaired : (held.zipIdx.filter (fun entry => nexts.all (fun next =>
      !((stepMatches step schema held next).map Prod.snd).contains
        entry.2))).map Prod.fst =
      held.filter (fun row => !nexts.any (step.agree schema row)) := by
    rw [← OuterJoin.map_fst_filter_zipIdx
      (fun row => !nexts.any (step.agree schema row)) held]
    refine congrArg _ (filter_congr (fun entry member => ?_))
    simp only [contains_stepMatches (mem_zipIdx_iff_getElem?.mp member),
      not_any_eq_all_not]
  refine Perm.trans (.of_eq (congrArg₂ (· ++ ·) (flatMap_congr (fun next _ => ?_)) ?_))
    (OuterJoin.streamed_perm.trans OuterJoin.joined_swap)
  · rw [← paired next, isEmpty_map, map_map]
    rfl
  · rw [← unpaired]
    cases step.joinType.preserves .left with
    | false => simp
    | true =>
        rw [flatMap_map]
        exact map_eq_flatMap

end JoinStep

/-! ## Chains -/

/-- The joins of tables from the left, unless one is larger than may be held. -/
def joinSteps (schema : JoinSchema) (limit : Nat) :
    Nat → List (JoinStep × TableDef × List Row) → List ChainRow →
      Except KernelError (List ChainRow)
  | _, [], held => .ok held
  | position, (step, table, nexts) :: rest, held => do
      let joined := step.rows schema position held nexts
      checkSize joined limit table
      joinSteps schema limit (position + 1) rest joined

/-- The rows of a chain, for those that are read of each of its tables. -/
def Chain.joined (chain : Chain) (schema : JoinSchema) (first : TableDef)
    (started : List Row) (opened : List (TableDef × List Row)) :
    Except KernelError (List ChainRow) := do
  let held := started.map ChainRow.start
  checkSize held chain.buildLimit first
  let rows ← joinSteps schema chain.buildLimit 1 (chain.steps.zip opened) held
  return rows.map (fun row =>
    { row with
      computed := computedValues (row.flatten schema) chain.compute })

namespace JoinReads

variable
  {reads : JoinReads}
  {snapshot : Snapshot}
  {context : SecurityContext}
  {schema : JoinSchema}

variable (reads snapshot context) in
/-- A query of a table reads these rows. -/
def Returns (query : PagedQuery) (read : TableDef × List Row) : Prop := (do
    let cursor ← reads.execute snapshot context read.1 query
    cursor.collect) = .ok read.2

omit [Platform] in
theorem checkSize_congr
    {held held' : List ChainRow} (perm : held.Perm held') (limit : Nat)
    (table : TableDef) :
    checkSize held limit table = checkSize held' limit table := by
  rw [checkSize, checkSize, perm.length_eq]

/-- Steps that read their tables at once are joins from the left. -/
theorem runSteps_hash
    {tables : List TableDef} {limit position : Nat} {steps : List JoinStep}
    {plans : List JoinStepPlan} {opened : List (TableDef × List Row)}
    (areRead : List.Forall₂ (fun step read =>
      reads.Returns snapshot context step.query read) steps opened)
    (isHash : ∀ plan ∈ plans, ∃ build, plan.algorithm = .hash build)
    (areTables : tables.drop position = opened.map Prod.fst)
    {held held' : List ChainRow} (perm : held.Perm held') :
    (reads.runSteps snapshot context tables schema limit position steps plans
        held).map Multiset.ofList =
      (joinSteps schema limit position (steps.zip opened) held').map
        Multiset.ofList := by
  induction areRead generalizing position plans held held' with
  | nil => exact congrArg Except.ok (Multiset.coe_eq_coe.mpr perm)
  | @cons step read steps opened isRead rest ih =>
      obtain ⟨cursor, isOpened, collected⟩ := bind_eq_ok.mp isRead
      have isTable : tableAt tables position = .ok read.1 := by
        rw [tableAt, ← head?_drop, areTables]
        rfl
      have isRest : tables.drop (position + 1) = opened.map Prod.fst := by
        rw [← tail_drop, areTables]
        rfl
      have stepped : ∀ build, reads.runStep snapshot context read.1 step schema
          position held (.hash build) =
            .ok (hashStep step schema position held read.2) := by
        intro build
        rw [runStep, isOpened]
        change (cursor.collect >>= _) = _
        rw [collected]
        rfl
      have joined : (hashStep step schema position held read.2).Perm
          (step.rows schema position held' read.2) :=
        (JoinStep.hashStep_perm ..).trans (OuterJoin.joined_perm perm)
      have isHash' : ∀ plan ∈ plans.tail, ∃ build, plan.algorithm = .hash build :=
        fun plan member => isHash plan (mem_of_mem_tail member)
      have isRun : reads.runSteps snapshot context tables schema limit position
          (step :: steps) plans held = (do
            checkSize (hashStep step schema position held read.2) limit read.1
            reads.runSteps snapshot context tables schema limit (position + 1)
              steps plans.tail (hashStep step schema position held read.2)) := by
        rw [runSteps, isTable]
        cases plans with
        | nil =>
            change (reads.runStep _ _ _ _ _ _ _ (.hash .right) >>= _) = _
            rw [stepped]
            rfl
        | cons plan others =>
            obtain ⟨build, isAlgorithm⟩ := isHash plan (mem_cons_self ..)
            change (reads.runStep _ _ _ _ _ _ _ plan.algorithm >>= _) = _
            rw [isAlgorithm, stepped]
            rfl
      rw [isRun, zip_cons_cons, joinSteps, checkSize_congr joined]
      cases checkSize (step.rows schema position held' read.2) limit read.1 with
      | error refusal => rfl
      | ok _ => exact ih isHash' isRest joined

omit [Platform] in
/-- What is computed of each row does not depend on their order. -/
theorem map_ofList_map
    {α β ε : Type} (outcome : Except ε (List α)) (change : α → β) :
    (do
      let rows ← outcome
      return rows.map change : Except ε (List β)).map Multiset.ofList =
        (outcome.map Multiset.ofList).map (Multiset.map change) := by
  cases outcome <;> rfl

/--
A chain whose steps read their tables at once returns the joins of its tables
from the left, in some order, and it is refused for the first of them that is
larger than may be held.
-/
theorem runChain_hash
    {first : TableDef} {chain paged : Chain} {plan : ChainPlan}
    {started : List Row} {opened : List (TableDef × List Row)}
    (isPaged : pagedChain chain first = .ok paged)
    (isWhole : paged.limit = none ∧ paged.offset = 0)
    (isStarted : reads.Returns snapshot context paged.first (first, started))
    (areRead : List.Forall₂ (fun step read =>
      reads.Returns snapshot context step.query read) paged.steps opened)
    (isHash : ∀ step ∈ plan.steps, ∃ build, step.algorithm = .hash build) :
    (reads.runChain snapshot context (first :: opened.map Prod.fst) chain plan
        schema).map Multiset.ofList =
      (paged.joined schema first started opened).map Multiset.ofList := by
  obtain ⟨cursor, isOpened, collected⟩ := bind_eq_ok.mp isStarted
  let held := started.map ChainRow.start
  let tables := first :: opened.map Prod.fst
  have ran : (reads.runSteps snapshot context tables schema paged.buildLimit 1
      paged.steps plan.steps held).map Multiset.ofList =
        (joinSteps schema paged.buildLimit 1 (paged.steps.zip opened) held).map
          Multiset.ofList :=
    runSteps_hash areRead isHash rfl (.refl _)
  have isRun : reads.runChain snapshot context tables chain plan schema = (do
      checkSize held paged.buildLimit first
      let rows ← reads.runSteps snapshot context tables schema
        paged.buildLimit 1 paged.steps plan.steps held
      return (RowWindow.of ⟨paged.limit, paged.offset⟩ rows).map (fun row =>
        { row with
          computed := computedValues (row.flatten schema) paged.compute })) := by
    change (pagedChain chain first >>= _) = _
    rw [isPaged]
    change (reads.execute _ _ _ _ >>= _) = _
    rw [isOpened]
    change (cursor.collect >>= _) = _
    rw [collected]
    rfl
  rw [isRun, Chain.joined, isWhole.1, isWhole.2]
  cases checkSize held paged.buildLimit first with
  | error refusal => rfl
  | ok _ =>
      exact (map_ofList_map ..).trans ((congrArg _ ran).trans (map_ofList_map ..).symm)

end JoinReads

end

/-! ## Poems that are chained -/

section

local instance chainPlatform : Platform := asciiPlatform

/-- Poems, a later one of the same words for each, and every poem for that one. -/
def laterChain : Chain where
  steps := [
    { on := [⟨1, 1⟩], joinType := .left, having := .compareColumns 0 .lt 2 },
    { on := [⟨2, 0⟩], joinType := .full }]

/-- One poem has a later one; two have none, and two are no later one. -/
theorem runChain_hash_poems :
    (indifferentJoinReads.runChain poemShelf.transaction .superuser
        [poems .asc, poems .asc, poems .asc] laterChain
        ⟨shelfScan, [⟨shelfScan, .hash .right⟩, ⟨shelfScan, .hash .left⟩]⟩
        (.overTables [poems .asc, poems .asc, poems .asc])).map Multiset.ofList =
      .ok (.ofList [
        ⟨[some ⟨[.i64 1, .str "a"]⟩, some ⟨[.i64 2, .str "a"]⟩,
          some ⟨[.i64 2, .str "a"]⟩], []⟩,
        ⟨[some ⟨[.i64 2, .str "a"]⟩, none, none], []⟩,
        ⟨[some ⟨[.i64 3, .str "b"]⟩, none, none], []⟩,
        ⟨[none, none, some ⟨[.i64 1, .str "a"]⟩], []⟩,
        ⟨[none, none, some ⟨[.i64 3, .str "b"]⟩], []⟩]) := by
  refine @JoinReads.runChain_hash _ _ _ _ _ _ laterChain laterChain _ shelvedPoems
    [(poems .asc, shelvedPoems), (poems .asc, shelvedPoems)] rfl ⟨rfl, rfl⟩
    read_poemShelf (.cons read_poemShelf (.cons read_poemShelf .nil)) ?_
  intro step member
  rcases mem_cons.mp member with rfl | member
  · exact ⟨.right, rfl⟩
  · rw [mem_singleton.mp member]
    exact ⟨.left, rfl⟩

end

end SlateOrm
