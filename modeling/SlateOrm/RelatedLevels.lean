import SlateOrm.TenantScopes

namespace SlateOrm

open List

/-!
# Levels of a path

Each level of a path holds the rows seen whose relating column holds a value
of the level before, each once and grouped by that value.  They are the rows
that the whole foreign key links to it when the step settles what it leaves to
the filter of the caller.
-/

/-! ## Groups -/

/-- Groups in the order of their keys, of rows that hold their key. -/
structure Grouped (column : Ordinal) (groups : List RelatedGroup) :
    Prop where
  ascending : groups.Pairwise (fun first second => first.key.cmp second.key = .lt)
  holds : ∀ group ∈ groups, group.rows ≠ [] ∧ ∀ row ∈ group.rows,
      (row.valueOrNull column).canonical = group.key.canonical

theorem forall_key_enterGroup
    {holds : Value → Prop} {groups : List RelatedGroup}
    (old : ∀ group ∈ groups, holds group.key)
    {key : Value} (isEntered : holds key) (row : Row) :
    ∀ group ∈ enterGroup key row groups, holds group.key := by
  induction groups with
  | nil => simpa [enterGroup] using isEntered
  | cons first rest ih =>
      have ⟨ofFirst, ofRest⟩ := forall_mem_cons.mp old
      rw [enterGroup]
      split
      · exact forall_mem_cons.mpr ⟨isEntered, old⟩
      · exact forall_mem_cons.mpr ⟨ofFirst, ofRest⟩
      · exact forall_mem_cons.mpr ⟨ofFirst, ih ofRest⟩

theorem rows_enterGroup
    (key : Value) (row : Row) (groups : List RelatedGroup) :
    ((enterGroup key row groups).flatMap RelatedGroup.rows).Perm
      (row :: groups.flatMap RelatedGroup.rows) := by
  induction groups with
  | nil => exact List.Perm.refl _
  | cons first rest ih =>
      rw [enterGroup]
      split
      · exact List.Perm.refl _
      · simp only [flatMap_cons, append_assoc]
        exact perm_middle
      · simp only [flatMap_cons]
        exact (ih.append_left first.rows).trans perm_middle

/-- Groups stay in order when a row is entered under its value. -/
theorem grouped_enterGroup
    {column : Ordinal} {groups : List RelatedGroup}
    (grouped : Grouped column groups) {key : Value} {row : Row}
    (isKey : (row.valueOrNull column).canonical = key.canonical) :
    Grouped column (enterGroup key row groups) := by
  have single : RelatedGroup.rows ⟨key, [row]⟩ ≠ [] ∧
      ∀ other ∈ RelatedGroup.rows ⟨key, [row]⟩,
        (other.valueOrNull column).canonical = key.canonical := by
    simpa using isKey
  induction groups with
  | nil => exact ⟨pairwise_singleton _ _, by simpa [enterGroup] using single⟩
  | cons first rest ih =>
      have ⟨ahead, ascending⟩ := pairwise_cons.mp grouped.ascending
      have ⟨ofFirst, ofRest⟩ := forall_mem_cons.mp grouped.holds
      rw [enterGroup]
      split
      · next less =>
          refine ⟨pairwise_cons.mpr ⟨?_, grouped.ascending⟩,
            forall_mem_cons.mpr ⟨single, grouped.holds⟩⟩
          exact forall_mem_cons.mpr ⟨less, fun other member =>
            Std.TransCmp.lt_trans less (ahead other member)⟩
      · next equal =>
          have same : (row.valueOrNull column).canonical =
              first.key.canonical :=
            isKey.trans (Value.cmp_eq_iff_canonical _ _ |>.mp equal)
          refine ⟨pairwise_cons.mpr ⟨ahead, ascending⟩,
            forall_mem_cons.mpr ⟨⟨by simp, ?_⟩, ofRest⟩⟩
          intro other member
          rcases mem_append.mp member with isOld | isNew
          · exact ofFirst.2 other isOld
          · exact mem_singleton.mp isNew ▸ same
      · next greater =>
          have entered := ih ⟨ascending, ofRest⟩
          refine ⟨pairwise_cons.mpr ⟨?_, entered.ascending⟩,
            forall_mem_cons.mpr ⟨ofFirst, entered.holds⟩⟩
          have isAhead : first.key.cmp key = .lt := Std.OrientedCmp.gt_iff_lt.mp greater
          exact @forall_key_enterGroup
            (fun other => first.key.cmp other = .lt) rest ahead key isAhead row

theorem groupRows_spec
    {column : Ordinal} {rows : List Row}
    (present : ∀ row ∈ rows, ∃ value, row.values[column]? = some value) :
    Grouped column (groupRows column rows) ∧
      ((groupRows column rows).flatMap RelatedGroup.rows).Perm rows := by
  have every (enter : List RelatedGroup → Row → List RelatedGroup)
      (enters : ∀ groups row key, row.values[column]? = some key →
        enter groups row = enterGroup key row groups) :
      ∀ groups, Grouped column groups → Grouped column (rows.foldl enter groups) ∧
          ((rows.foldl enter groups).flatMap RelatedGroup.rows).Perm
            (groups.flatMap RelatedGroup.rows ++ rows) := by
    induction rows with
    | nil =>
        intro groups grouped
        exact ⟨grouped, by simp⟩
    | cons row rest ih =>
        intro groups grouped
        obtain ⟨⟨key, found⟩, others⟩ := forall_mem_cons.mp present
        have isKey : (row.valueOrNull column).canonical = key.canonical := by
          rw [Row.valueOrNull, Row.get, found, Option.getD_some]
        obtain ⟨groupedRest, perm⟩ := ih others _ (grouped_enterGroup grouped isKey)
        rw [foldl_cons, enters groups row key found]
        refine ⟨groupedRest, perm.trans ?_⟩
        exact ((rows_enterGroup key row groups).append_right rest).trans
          perm_middle.symm
  exact every _ (fun groups row key found => by rw [found]) []
    ⟨List.Pairwise.nil, by simp⟩

/-! ## Resolved paths -/

namespace Head

variable
  {head : Head}
  {context : SecurityContext}

/-- The steps of a path are resolved each, and compose. -/
theorem resolvePath_spec
    (wellFormed : head.catalog.WellFormed)
    (validated : head.catalog.validateForeignKeys = .ok ())
    {path : List RelatedStep} {place : Nat} {previous : Option ResolvedStep}
    {steps : List ResolvedStep}
    (resolved : head.resolvePath context place previous path = .ok steps) :
    List.Forall₂ head.catalog.Resolves (path.filterMap RelatedStep.relation) steps ∧
      path.length = steps.length ∧
      (previous.toList ++ steps).IsChain (fun before this =>
        before.rowsFrom.id = this.source.id) := by
  induction path generalizing place previous steps with
  | nil =>
      cases resolved
      refine ⟨List.Forall₂.nil, rfl, ?_⟩
      cases previous <;> simp
  | cons first rest ih =>
      rw [resolvePath] at resolved
      cases isRelation : first.relation with
      | none =>
          rw [isRelation] at resolved
          cases resolved
      | some relation =>
          rw [isRelation] at resolved
          replace resolved := ok_of_bind resolved
          obtain ⟨this, isThis, resolved⟩ := bind_eq_ok.mp resolved
          obtain ⟨_, composes, resolved⟩ := bind_eq_ok.mp resolved
          obtain ⟨others, areOthers, resolved⟩ := bind_eq_ok.mp resolved
          cases resolved
          obtain ⟨each, sameLength, chain⟩ := ih areOthers
          refine ⟨?_, by simpa using sameLength, ?_⟩
          · rw [filterMap_cons_some isRelation]
            exact .cons (resolves_of_resolveRelation wellFormed validated isThis) each
          · cases previous with
            | none => exact chain
            | some previous =>
                rw [checkComposes] at composes
                split at composes
                · cases composes
                · next same => exact List.IsChain.cons_cons (not_not.mp same) chain

theorem tableByName_of_mem
    {catalog : Catalog} (names : (catalog.tables.map TableDef.name).Nodup)
    {table : TableDef}
    (inCatalog : table ∈ catalog.tables) :
    catalog.tableByName table.name = some table := by
  cases found : catalog.tableByName table.name with
  | none =>
      have differs := find?_eq_none.mp found table inCatalog
      simp at differs
  | some other =>
      have sameName : other.name = table.name := by
        simpa using find?_some found
      rw [inj_on_of_nodup_map names (mem_of_find?_eq_some found) inCatalog sameName]

theorem checkSteps_eq_ok
    (names : (head.catalog.tables.map TableDef.name).Nodup)
    {pairs : List (RelatedStep × ResolvedStep)}
    (inCatalog : ∀ pair ∈ pairs, pair.2.rowsFrom ∈ head.catalog.tables)
    {tables : List TableDef}
    (checked : head.checkSteps context pairs = .ok tables) :
    tables = pairs.map (fun pair => pair.2.rowsFrom) := by
  induction pairs generalizing tables with
  | nil =>
      cases checked
      rfl
  | cons pair rest ih =>
      have ⟨first, others⟩ := forall_mem_cons.mp inCatalog
      obtain ⟨table, isTable, checked⟩ := bind_eq_ok.mp checked
      replace checked := ok_of_bind checked
      obtain ⟨tables', areTables, checked⟩ := bind_eq_ok.mp checked
      cases checked
      rw [authorizedTable, tableByName_of_mem names first] at isTable
      replace isTable := ok_of_bind isTable
      cases isTable
      rw [map_cons, ih others areTables]

end Head

/-! ## Reads -/

section

variable [Platform]

/-- A table that a caller sees every column of, and what is stored of it. -/
structure Head.SeesWhole (head : Head) (wellFormed : head.catalog.WellFormed)
    (context : SecurityContext) (snapshot : Snapshot)
    (held : TableDef → List Row) (table : TableDef) : Prop where
  readable : ReadableTable wellFormed snapshot table (held table)
  everyColumn : head.reads.security.readable context table = none

/-- Whether a row holds one of some keys in a column. -/
def holdsOneOf (keys : List Value) (column : Ordinal) (row : Row) : Bool :=
  keys.any (fun key => relatesOver key column row.values)

theorem admits_in
    (column : Ordinal) (keys : List Value) (row : Row) :
    (Expr.in column keys).admits row = holdsOneOf keys column row := by
  rw [Bool.eq_iff_iff, admits_in_iff, holdsOneOf, any_eq_true]

omit [Platform] in
theorem exists_of_holdsOneOf
    {keys : List Value} {column : Ordinal} {row : Row}
    (holds : holdsOneOf keys column row = true) :
    ∃ value, row.values[column]? = some value := by
  obtain ⟨key, _, related⟩ := any_eq_true.mp holds
  rw [relatesOver, Option.any_eq_true] at related
  obtain ⟨value, found, _⟩ := related
  exact ⟨value, found⟩

omit [Platform] in
theorem holdsOneOf_sortedKeys
    (keys : List Value) (column : Ordinal) (row : Row) :
    holdsOneOf (sortedKeys keys) column row = holdsOneOf keys column row := by
  rw [Bool.eq_iff_iff, holdsOneOf, holdsOneOf, any_eq_true, any_eq_true]
  constructor
  · rintro ⟨key, isKey, related⟩
    exact ⟨key, (mem_insertionSort _).mp (mem_of_mem_dedup isKey), related⟩
  · rintro ⟨key, isKey, related⟩
    obtain ⟨key', isKey', equal⟩ := exists_mem_sortedKeys isKey
    refine ⟨key', isKey', ?_⟩
    rw [relatesOver_congr ((Value.beq_iff_canonical _ _).mp equal) column
      (rfl : row.Same row), related]

omit [Platform] in
theorem looksOnly_holdsOneOf
    (keys : List Value) (column : Ordinal) :
    LooksOnly Row.canonical (holdsOneOf keys column) :=
  fun _ _ same => congrArg keys.any (funext fun _ => relatesOver_congr rfl column same)

namespace Head

variable
  {head : Head}
  {wellFormed : head.catalog.WellFormed}
  {context : SecurityContext}
  {snapshot : Snapshot}
  {held : TableDef → List Row}

variable {keys : List Value} {rest : List (ResolvedStep × TableDef)}
  {steps : List ResolvedStep} {relations : List Relation}

theorem alike_relatedRows
    {plan : ResolvedStep}
    (whole : head.SeesWhole wellFormed context snapshot held plan.rowsFrom)
    {rows : List Row}
    (isRead : head.relatedRows context snapshot plan plan.rowsFrom keys = .ok rows) :
    Alike Row.canonical rows
      ((head.visibleRows context plan.rowsFrom (held plan.rowsFrom)).filter
        (holdsOneOf keys plan.matchOn)) := by
  obtain ⟨cursor, isCursor, isRows⟩ := bind_eq_ok.mp isRead
  let query : Query := { filter := .in plan.matchOn keys }
  obtain ⟨plan', planned, _⟩ := bind_eq_ok.mp isCursor
  obtain ⟨filter, isFilter, _⟩ := SecuredReads.plan_eq_ok planned
  have isFilter' : head.reads.security.rowFilterWith context plan.rowsFrom
      .read .hidden = .ok filter :=
    isFilter
  have unsearched : ∀ index : IndexDef, ¬index.Searched query.filter := by
    rintro _ ⟨_, -, _, member⟩
    cases mem_singleton.mp member
  have perm := SecuredReads.perm_of_everyColumn whole.readable
    whole.everyColumn (rfl : query.compute = []) rfl isFilter unsearched
    isCursor isRows
  have both : (query.filter.andThen filter).admits =
      fun row => holdsOneOf keys plan.matchOn row && filter.admits row := by
    funext row
    rw [Expr.admits_andThen, admits_in]
  rw [both] at perm
  rw [visibleRows, isFilter', Alike, filter_filter]
  exact perm

omit [Platform] in
theorem holdsOneOf_sourceValues
    (plan : ResolvedStep) (rows : List Row) (row : Row) :
    holdsOneOf (rows.filterMap (fun before =>
        before.values[plan.sourceColumn]?)) plan.matchOn row =
      rows.any (fun before => plan.relates before row) := by
  rw [holdsOneOf, any_filterMap]
  refine any_congr rfl fun before => ?_
  rw [ResolvedStep.relates, Row.valueOrNull, Row.get]
  cases before.values[plan.sourceColumn]? with
  | none => exact (relatesOver_null _ _).symm
  | some value => rfl

omit [Platform] in
theorem holdsOneOf_nextKeys
    {next : ResolvedStep × TableDef}
    (isNext : rest.head? = some next)
    (rows : List Row) (row : Row) :
    holdsOneOf (nextKeys rows rest) next.1.matchOn row =
      rows.any (fun before => next.1.relates before row) := by
  obtain ⟨others, rfl⟩ := head?_eq_some_iff.mp isNext
  rw [nextKeys, holdsOneOf_sortedKeys, holdsOneOf_sourceValues]

/-- The first level of a path that is read, and how its rest is read on. -/
theorem readLevels_cons
    {plan : ResolvedStep}
    (whole : head.SeesWhole wellFormed context snapshot held plan.rowsFrom)
    {levels : List Level}
    (isRead : head.readLevels context snapshot ((plan, plan.rowsFrom) :: rest)
      keys = .ok levels) :
    ∃ level others keys', levels = level :: others ∧ Grouped plan.matchOn level.groups ∧
      Alike Row.canonical level.rows
        ((head.visibleRows context plan.rowsFrom (held plan.rowsFrom)).filter
          (holdsOneOf keys plan.matchOn)) ∧
      head.readLevels context snapshot rest keys' = .ok others ∧
      ∀ next, rest.head? = some next → ∀ row, holdsOneOf keys' next.1.matchOn row =
          level.rows.any (fun before => next.1.relates before row) := by
  rw [readLevels] at isRead
  split at isRead
  · next nothing =>
      obtain ⟨others, areOthers, isRead⟩ := bind_eq_ok.mp isRead
      cases isRead
      refine ⟨_, others, [], rfl, ⟨List.Pairwise.nil, by simp⟩, ?_, areOthers,
        fun next _ row => rfl⟩
      simp [isEmpty_iff.mp nothing, holdsOneOf, Level.rows, Alike]
  · obtain ⟨rows, areRows, isRead⟩ := bind_eq_ok.mp isRead
    obtain ⟨others, areOthers, isRead⟩ := bind_eq_ok.mp isRead
    cases isRead
    have alike := alike_relatedRows whole areRows
    have present : ∀ row ∈ rows, ∃ value, row.values[plan.matchOn]? = some value := by
      intro row isRow
      obtain ⟨stored, isStored, same⟩ :=
        mem_map.mp (alike.subset (mem_map_of_mem isRow))
      have holds := (mem_filter.mp isStored).2
      rw [looksOnly_holdsOneOf keys plan.matchOn stored row same] at holds
      exact exists_of_holdsOneOf holds
    have ⟨grouped, perm⟩ := groupRows_spec present
    refine ⟨_, others, _, rfl, grouped, (perm.map _).trans alike, areOthers,
      fun next isNext row => ?_⟩
    rw [holdsOneOf_nextKeys isNext]
    exact perm.symm.any_eq

/-- The levels after some rows are found from them. -/
theorem foundFrom_readLevels
    (each : List.Forall₂ head.catalog.Resolves relations steps)
    (whole : ∀ plan ∈ steps,
      head.SeesWhole wellFormed context snapshot held plan.rowsFrom)
    {before : List Row}
    (keysOf : ∀ plan, steps.head? = some plan → ∀ row,
      holdsOneOf keys plan.matchOn row =
        before.any (fun other => plan.relates other row))
    {levels : List Level}
    (isRead : head.readLevels context snapshot
      (steps.map (fun plan => (plan, plan.rowsFrom))) keys = .ok levels) :
    List.Forall₂ (fun plan level => Grouped plan.matchOn level.groups) steps levels ∧
      Hop.FoundFrom Row.canonical before
        ((zipWith (head.hop context held) relations steps).zip
          (levels.map Level.rows)) := by
  induction each generalizing keys before levels with
  | nil =>
      cases isRead
      exact ⟨.nil, trivial⟩
  | @cons relation plan relations steps resolves rest ih =>
      have ⟨here, others⟩ := forall_mem_cons.mp whole
      obtain ⟨level, levels', keys', rfl, grouped, alike, isRead', keysOf'⟩ :=
        readLevels_cons here isRead
      have ⟨groupedRest, foundRest⟩ := ih others
        (fun next isNext row => keysOf' (next, next.rowsFrom)
          (by rw [head?_map, isNext]; rfl) row) isRead'
      refine ⟨.cons grouped groupedRest, ?_, foundRest⟩
      have found : holdsOneOf keys plan.matchOn = fun row =>
          before.any (fun other => plan.relates other row) :=
        funext fun row => keysOf plan rfl row
      rw [found] at alike
      exact alike

/-! ## Steps that settle what they leave -/

/-- Each step, from the rows that the links before it reach, settles what it
leaves to the filter of the caller. -/
def SettledFrom (head : Head) (context : SecurityContext) (held : TableDef → List Row) :
    List Row → List (Relation × ResolvedStep) → Prop
  | _, [] => True
  | before, (relation, plan) :: rest =>
      head.Settles context relation plan before
          (head.visibleRows context plan.rowsFrom (held plan.rowsFrom)) ∧
        head.SettledFrom context held
          ((head.hop context held relation plan).reached before) rest

/-- The steps settle what they leave when what they find is what the links
lead to. -/
theorem settledFrom_iff_agreeFrom
    (tableIds : ∀ table ∈ head.catalog.tables, ∀ other ∈ head.catalog.tables,
      table.id = other.id → table = other)
    (each : List.Forall₂ head.catalog.Resolves relations steps)
    {previous : ResolvedStep}
    (inCatalog : previous.rowsFrom ∈ head.catalog.tables)
    (composes : (previous :: steps).IsChain (fun before this =>
      before.rowsFrom.id = this.source.id))
    {before : List Row}
    (isSeen : ∀ other ∈ before, other ∈
      head.visibleRows context previous.rowsFrom (held previous.rowsFrom)) :
    head.SettledFrom context held before (relations.zip steps) ↔ Hop.AgreeFrom before
        (zipWith (head.hop context held) relations steps) := by
  induction each generalizing previous before with
  | nil => exact Iff.rfl
  | @cons relation plan relations steps resolves rest ih =>
      obtain ⟨sameId, composesRest⟩ := isChain_cons_cons.mp composes
      have ⟨isRows, isSource⟩ := resolves.inCatalog
      have same : previous.rowsFrom = plan.source :=
        tableIds _ inCatalog _ isSource sameId
      rw [same] at isSeen
      rw [zip_cons_cons, SettledFrom, zipWith_cons_cons,
        Hop.AgreeFrom, settles_iff_agrees resolves.linksBy isSeen]
      refine and_congr_right fun _ => ih isRows composesRest fun other isReached => ?_
      exact (mem_filter.mp isReached).1

theorem looks_hop
    (relation : Relation) (plan : ResolvedStep) :
    (head.hop context held relation plan).Looks Row.canonical where
  compared := plan.looksAtBoth_relates
  linked := head.catalog.looksAtBoth_links relation

end Head

/-! ## Answers -/

/-- The relationships of a path. -/
def RelatedRequest.relations (request : RelatedRequest) : List Relation :=
  request.path.filterMap RelatedStep.relation

/--
The levels of an answer follow the foreign keys of a path: there is one for
each step, grouped by the relating value, and each after the first holds
exactly the rows seen that the whole foreign key links to one before it.
-/
structure RelatedResponse.FollowsKeys (response : RelatedResponse)
    (head : Head) (context : SecurityContext) (held : TableDef → List Row)
    (request : RelatedRequest) (steps : List ResolvedStep) : Prop where
  grouped : List.Forall₂ (fun plan level =>
    Grouped plan.matchOn level.groups) steps response.levels
  linked : ∀ first rest, response.levels = first :: rest →
    Hop.LinkedFrom Row.canonical first.rows
      ((List.zipWith (head.hop context held) request.relations
        steps).tail.zip (rest.map Level.rows))

/-- The steps of a path after its first, from the rows that hold one of the
keys, settle what they leave to the filter of the caller. -/
def Head.SettlesPath (head : Head) (context : SecurityContext)
    (held : TableDef → List Row) (request : RelatedRequest)
    (steps : List ResolvedStep) : Prop :=
  match request.relations.zip steps with
  | [] => True
  | (_, plan) :: rest =>
      head.SettledFrom context held
        ((head.visibleRows context plan.rowsFrom (held plan.rowsFrom)).filter
          (holdsOneOf request.keys plan.matchOn)) rest

theorem Head.readLevels_nil
    (head : Head) (context : SecurityContext) (snapshot : Snapshot)
    (steps : List ResolvedStep) :
    head.readLevels context snapshot
        (steps.map (fun plan => (plan, plan.rowsFrom))) [] =
      .ok (emptyLevels steps) := by
  induction steps with
  | nil => rfl
  | cons plan rest ih =>
      rw [map_cons, readLevels, if_pos isEmpty_nil, ih]
      rfl

/-- An answer to a path is of the levels that were read. -/
theorem Head.readLevels_of_related
    {head : Head}
    (wellFormed : head.catalog.WellFormed)
    (validated : head.catalog.validateForeignKeys = .ok ())
    (names : (head.catalog.tables.map TableDef.name).Nodup)
    {context : SecurityContext} {view : ServedView} {request : RelatedRequest}
    {steps : List ResolvedStep}
    (resolved : head.resolvePath context 0 none request.path = .ok steps)
    {response : RelatedResponse}
    (answered : head.related context view request = .ok response) :
    (request.path = [] ∧ response.levels = []) ∨ head.readLevels context view.snapshot
        (steps.map (fun plan => (plan, plan.rowsFrom)))
        (sortedKeys request.keys) = .ok response.levels := by
  obtain ⟨⟨path, levelled⟩, isPath, deepening⟩ := bind_eq_ok.mp answered
  obtain ⟨_, _, resolving⟩ := bind_eq_ok.mp deepening
  obtain ⟨resolvedSteps, areResolved, checking⟩ := bind_eq_ok.mp resolving
  obtain ⟨tables, areTables, reading⟩ := bind_eq_ok.mp checking
  rw [RelatedRequest.steps] at isPath
  split at isPath
  · cases isPath
  · next isRelation isEmpty =>
      -- One relationship is answered with groups, and no levels.
      cases isPath
      refine Or.inl ⟨isEmpty_iff.mp isEmpty, ?_⟩
      dsimp only at reading
      split at reading
      · cases reading
        rfl
      · obtain ⟨_, _, reading⟩ := bind_eq_ok.mp reading
        cases reading
        rfl
  · cases isPath
    cases resolved.symm.trans areResolved
    have ⟨each, sameLength, _⟩ := resolvePath_spec wellFormed validated resolved
    have inCatalog : ∀ plan ∈ steps, plan.rowsFrom ∈ head.catalog.tables := by
      intro plan isPlan
      obtain ⟨place, inside, rfl⟩ := mem_iff_getElem.mp isPlan
      have inside' : place < (request.path.filterMap RelatedStep.relation).length :=
        each.length_eq ▸ inside
      exact (each.get inside' inside).inCatalog.1
    have isTables := checkSteps_eq_ok names (fun pair isPair =>
      inCatalog pair.2 (of_mem_zip isPair).2) areTables
    have isZip : steps.zip tables = steps.map (fun plan => (plan, plan.rowsFrom)) := by
      have isRows : tables = steps.map ResolvedStep.rowsFrom := by
        rw [isTables]
        conv_rhs => rw [← map_snd_zip sameLength.ge]
        exact (map_map ..).symm
      rw [isRows, ← zip_map', map_id']
    right
    dsimp only at reading
    split at reading
    · next nothing =>
        cases reading
        rw [isEmpty_iff.mp nothing]
        exact head.readLevels_nil context view.snapshot steps
    · obtain ⟨levels, areLevels, reading⟩ := bind_eq_ok.mp reading
      cases reading
      rw [isZip] at areLevels
      cases isRead : head.readLevels context view.snapshot
          (steps.map (fun plan => (plan, plan.rowsFrom)))
          (sortedKeys request.keys) with
      | error refusal =>
          rw [isRead] at areLevels
          cases areLevels
      | ok found =>
          rw [isRead] at areLevels
          cases areLevels
          rfl
  · cases isPath

section

variable
  {tables : List TableDef}
  {head : Head}
  {context : SecurityContext}
  {held : TableDef → List Row}
  {request : RelatedRequest}
  {steps : List ResolvedStep}

/--
Each level of a path after its first holds exactly the rows that the whole
foreign key links to the level before, each once and grouped by the relating
value, when every step settles what it leaves to the filter of the caller.
-/
theorem Head.related_followsKeys_iff
    (built : ∀ table ∈ tables, ∃ builder : TableBuilder, builder.build = .ok table)
    (made : Catalog.fromTables tables = .ok head.catalog)
    {view : ServedView}
    (resolved : head.resolvePath context 0 none request.path = .ok steps)
    (whole : ∀ plan ∈ steps,
      head.SeesWhole (Catalog.wellFormed_of_fromTables built made) context
        view.snapshot held plan.rowsFrom)
    {response : RelatedResponse}
    (answered : head.related context view request = .ok response) :
    response.FollowsKeys head context held request steps ↔
      head.SettlesPath context held request steps := by
  have wellFormed := Catalog.wellFormed_of_fromTables built made
  have ⟨sound, validated⟩ := Catalog.sound_of_fromTables made
  have ⟨each, _, composes⟩ := resolvePath_spec wellFormed validated resolved
  rcases readLevels_of_related wellFormed validated sound.names resolved answered
    with ⟨noPath, noLevels⟩ | areLevels
  · -- One relationship has no level after its first.
    rw [noPath] at resolved
    cases resolved
    refine iff_of_true ⟨?_, ?_⟩ ?_
    · rw [noLevels]
      exact .nil
    · intro first rest isLevels
      rw [noLevels] at isLevels
      cases isLevels
    · rw [SettlesPath, RelatedRequest.relations, noPath]
      trivial
  · generalize areRelations :
      request.path.filterMap RelatedStep.relation = relations at each
    have isRelations : request.relations = relations := areRelations
    cases each with
    | nil =>
        have noLevels : response.levels = [] := (Except.ok.inj areLevels).symm
        refine iff_of_true ⟨?_, ?_⟩ ?_
        · rw [noLevels]
          exact .nil
        · intro first rest isLevels
          rw [noLevels] at isLevels
          cases isLevels
        · rw [SettlesPath, isRelations]
          trivial
    | @cons relation plan relations steps resolves rest =>
        have ⟨here, others⟩ := forall_mem_cons.mp whole
        have ⟨isRows, isSource⟩ := resolves.inCatalog
        obtain ⟨level, levels, keys, areCons, grouped, alike, areRead,
          keysOf⟩ := readLevels_cons here areLevels
        have sameKeys : holdsOneOf (sortedKeys request.keys) plan.matchOn =
            holdsOneOf request.keys plan.matchOn :=
          funext (holdsOneOf_sortedKeys _ _)
        rw [sameKeys] at alike
        have ⟨groupedRest, foundRest⟩ := foundFrom_readLevels rest others
          (fun next isNext row => keysOf (next, next.rowsFrom)
            (by rw [head?_map, isNext]; rfl) row) areRead
        have looks : ∀ step ∈ (zipWith (head.hop context held) relations
            steps).zip (levels.map Level.rows), step.1.Looks Row.canonical := by
          intro step isStep
          have isHop := (of_mem_zip isStep).1
          rw [← map_uncurry_zip_eq_zipWith] at isHop
          obtain ⟨pair, _, isHop⟩ := mem_map.mp isHop
          rw [← isHop]
          exact looks_hop pair.1 pair.2
        have areHops : ((zipWith (head.hop context held) relations
            steps).zip (levels.map Level.rows)).map Prod.fst =
              zipWith (head.hop context held) relations steps := by
          refine map_fst_zip ?_
          rw [length_zipWith, length_map, ← groupedRest.length_eq]
          exact Nat.min_le_right _ _
        have linked_iff := Hop.linkedFrom_iff_agreeFrom looks alike foundRest
        rw [areHops, ← settledFrom_iff_agreeFrom wellFormed.tableIds rest isRows
          composes fun other isFound => (mem_filter.mp isFound).1] at linked_iff
        rw [SettlesPath, isRelations]
        refine Iff.trans ⟨fun follows => ?_, fun linked => ⟨?_, ?_⟩⟩ linked_iff
        · have linked := follows.linked level levels areCons
          rw [isRelations] at linked
          exact linked
        · rw [areCons]
          exact .cons grouped groupedRest
        · intro first others isLevels
          cases areCons.symm.trans isLevels
          rw [isRelations]
          exact linked

end

end

/-! ## Members and their mentors -/

section

local instance memberPlatform : Platform := asciiPlatform

/-- Members of tenants, each with a mentor by keys in either order. -/
def membersBuilder : TableBuilder where
  id := 1
  name := "members"
  columns := [
    { name := "tenant", type := .u64 },
    { name := "id", type := .u64 },
    { name := "mentor", type := .u64, nullable := true }]
  primaryKey := ["tenant", "id"]
  foreignKeys := [
    { name := "mentored"
      columns := ["tenant", "mentor"]
      parent := 1
      onDelete := .restrict },
    { name := "crossed"
      columns := ["mentor", "tenant"]
      parent := 1
      onDelete := .restrict }]
  tenantColumn := some "tenant"

/-- The table that the builder makes. -/
def members : TableDef where
  id := 1
  name := "members"
  columns := membersBuilder.columns.map ColumnSpec.toColumn
  primaryKey := [0, 1]
  bodyColumns := [2]
  storedColumns := [2]
  indexes := []
  checks := []
  foreignKeys := [ ⟨"mentored", [0, 2], 1, .restrict⟩,
    ⟨"crossed", [2, 0], 1, .restrict⟩]
  tenantColumn := some 0
  softDelete := none
  schemaVersion := 0

theorem built_members :
    ∀ table ∈ [members], ∃ builder : TableBuilder, builder.build = .ok table := by
  intro table member
  rw [mem_singleton.mp member]
  exact ⟨membersBuilder, rfl⟩

/-- Three members of a tenant, each the mentor of the next, and another's. -/
def memberRows : List Row := [⟨[.u64 1, .u64 1, .null]⟩, ⟨[.u64 1, .u64 2, .u64 1]⟩,
    ⟨[.u64 1, .u64 3, .u64 2]⟩, ⟨[.u64 2, .u64 1, .null]⟩]

/-- The members are written, mentors first. -/
def memberCalls : List Call :=
  ([0, 3, 1, 2].filterMap (fun place => memberRows[place]?)).map (fun row =>
    .write (.plain ⟨[members]⟩) .superuser members (.keyed (.insert row)))

/-- What serves the members, to those who may read them. -/
def memberHead : Head where
  catalog := ⟨[members]⟩
  reads := {
    security := { grants := [⟨"reader", 1, [.read], none⟩] }
    statistics := fun _ => indifferentStats
    limits := {} }
  maxRelationDepth := some 4

/-- A reader of the first tenant. -/
def memberReader : SecurityContext where
  principal := ⟨.u64 9, some (.u64 1), ["reader"]⟩

/-- The members whose mentor is the first, and those whose mentors they are. -/
def memberRequest (foreignKey : String) : RelatedRequest where
  keys := [.u64 1]
  path := List.replicate 2 ⟨some ⟨"members", foreignKey, .children⟩, none⟩

/-- A step from members to those whose mentor they are. -/
def memberStep : ResolvedStep := ⟨members, 2, members, 1⟩

/-- The members that are stored, and the levels of the answer. -/
def memberLevels (foreignKey : String) : Option (List Row × List (List Row)) := do
  let state ← memberCalls.foldlM Call.step (.begin ∅)
  let rows ← (readTable state.transaction members).toOption
  let response ← (memberHead.related memberReader
    ⟨state.transaction, ⟨"", 0⟩⟩ (memberRequest foreignKey)).toOption
  return (rows, response.levels.map Level.rows)

theorem memberLevels_eq
    {foreignKey : String}
    (isKey : foreignKey ∈ ["mentored", "crossed"]) :
    memberLevels foreignKey = some (memberRows, [[⟨[.u64 1, .u64 2, .u64 1]⟩],
        [⟨[.u64 1, .u64 3, .u64 2]⟩]]) := by
  rcases mem_cons.mp isKey with rfl | isKey
  · rfl
  · rw [mem_singleton.mp isKey]
    rfl

/-- The members are stored and answered as they are read. -/
theorem exists_members
    {foreignKey : String}
    (isKey : foreignKey ∈ ["mentored", "crossed"]) :
    ∃ state response first second, memberHead.related memberReader ⟨state, ⟨"", 0⟩⟩
          (memberRequest foreignKey) = .ok response ∧
        memberHead.SeesWhole (Catalog.wellFormed_of_fromTables built_members
          rfl) memberReader state (fun _ => memberRows) members ∧
        response.levels = [first, second] ∧
        first.rows = [⟨[.u64 1, .u64 2, .u64 1]⟩] ∧
        second.rows = [⟨[.u64 1, .u64 3, .u64 2]⟩] := by
  have levels := memberLevels_eq isKey
  rw [memberLevels] at levels
  obtain ⟨state, isStore, levels⟩ := Option.bind_eq_some_iff.mp levels
  obtain ⟨rows, isRead, levels⟩ := Option.bind_eq_some_iff.mp levels
  obtain ⟨response, answered, levels⟩ := Option.bind_eq_some_iff.mp levels
  simp only [Option.pure_def, Option.some.injEq, Prod.mk.injEq] at levels
  obtain ⟨rfl, areLevels⟩ := levels
  obtain ⟨first, others, isFirst, isFirstRows, areOthers⟩ :=
    map_eq_cons_iff.mp areLevels
  obtain ⟨second, last, isSecond, isSecondRows, isLast⟩ := map_eq_cons_iff.mp areOthers
  rw [isSecond, map_eq_nil_iff.mp isLast] at isFirst
  have wellFormed : Catalog.WellFormed ⟨[members]⟩ :=
    Catalog.wellFormed_of_fromTables built_members rfl
  have unmanaged : Catalog.Unmanaged ⟨[members]⟩ := by
    intro table member
    rw [mem_singleton.mp member]
    exact ⟨rfl, rfl⟩
  have names : ∀ call ∈ memberCalls, call.Names ⟨[members]⟩ := by
    simp [memberCalls, memberRows, Call.Names, RecordWrite.Named,
      RecordTransaction.plain]
  have fits : ∀ call ∈ memberCalls, ∀ row ∈ call.rows, row.Fits := by
    simp [memberCalls, memberRows, Call.rows, RecordWrite.rows,
      KeyedWrite.rows, Row.Fits, Value.fits]
  have keeps := Catalog.keepsOnly_of_calls wellFormed unmanaged names fits
    (.of_foldlM isStore)
  refine ⟨state.transaction, response, first, second,
    eq_ok_of_toOption answered, ⟨⟨mem_singleton.mpr rfl, keeps.keeps,
      eq_ok_of_toOption isRead⟩, rfl⟩, isFirst, isFirstRows, isSecondRows⟩

/-- By the key that puts the tenants opposite each other, the third member is
reached from the second. -/
theorem related_followsKeys_mentored :
    ∃ state response, memberHead.related memberReader ⟨state, ⟨"", 0⟩⟩
        (memberRequest "mentored") = .ok response ∧
      response.FollowsKeys memberHead memberReader (fun _ => memberRows)
        (memberRequest "mentored") [memberStep, memberStep] := by
  obtain ⟨state, response, first, second, answered, whole, _⟩ :=
    exists_members (mem_cons_self : "mentored" ∈ _)
  refine ⟨state, response, answered, (Head.related_followsKeys_iff
    built_members rfl rfl ?_ answered).mpr ?_⟩
  · intro plan isPlan
    have isStep : plan = memberStep := by simpa using isPlan
    rw [isStep]
    exact whole
  · -- The caller has a tenant, and the key starts with it.
    refine ⟨fun named tenant isNamed isTenant => ?_, trivial⟩
    cases isNamed
    cases isTenant
    trivial

/-- By the key that puts the tenant opposite the id, the third member is
returned after the second, though no key of it leads there. -/
theorem not_followsKeys_crossed :
    ¬∀ (_ : Platform) (tables : List TableDef) (built : ∀ table ∈ tables,
        ∃ builder : TableBuilder, builder.build = .ok table)
      (head : Head) (made : Catalog.fromTables tables = .ok head.catalog)
      (context : SecurityContext) (held : TableDef → List Row)
      (view : ServedView) (request : RelatedRequest)
      (steps : List ResolvedStep),
      head.resolvePath context 0 none request.path = .ok steps →
      (∀ plan ∈ steps, head.SeesWhole (Catalog.wellFormed_of_fromTables built
        made) context view.snapshot held plan.rowsFrom) →
      ∀ response, head.related context view request = .ok response →
        response.FollowsKeys head context held request steps := by
  intro always
  obtain ⟨state, response, first, second, answered, whole, areLevels,
    isFirst, isSecond⟩ :=
    exists_members (by simp : "crossed" ∈ ["mentored", "crossed"])
  have follows := always memberPlatform [members] built_members memberHead rfl
    memberReader (fun _ => memberRows) ⟨state, ⟨"", 0⟩⟩
    (memberRequest "crossed") [memberStep, memberStep] rfl
    (by simpa [memberStep] using whole) response answered
  have linked := (follows.linked first [second] areLevels).1
  have nothing : ((memberHead.hop memberReader (fun _ => memberRows)
      ⟨"members", "crossed", .children⟩ memberStep).reached
        [⟨[.u64 1, .u64 2, .u64 1]⟩]).length = 0 :=
    rfl
  have sameLength := linked.length_eq
  rw [isFirst, length_map, length_map, isSecond, nothing] at sameLength
  cases sameLength

end

end SlateOrm
