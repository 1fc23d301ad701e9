import SlateOrm.PlanBounds

namespace SlateOrm

open List Keys

/-!
# Questions that plans are right about

An index is right about a row if plans find the row's entries whatever is asked
of the columns that the index holds.  Asking each of them for the value that a
query computes, or for the values on one side of another, shows what the index
has to hold: a plan that reads it finds the row only if it does.
-/

section

variable [Platform]

/-- Every plan for a table reaches every valid row that its filter admits. -/
def TableDef.PlansReach (table : TableDef) : Prop :=
  ∀ (row : Row) (predicate : Expr) (compute : List Scalar)
    (order : ScanOrder) (projection : Projection) (stats : TableStats)
    (sort : List SortKey) (hint : Option AccessHint),
    row.validate table = .ok () →
    predicate.admits (extendRow row compute [] none) = true →
    (planHinted table predicate order projection stats sort hint
      compute).access.Reaches table row

/-! ## Questions that an index is read for -/

/-- The predicate that a row has the tenant it has. -/
def tenantEquality (table : TableDef) (row : Row) : Expr :=
  match table.tenantColumn with
  | some tenant => .eq tenant (row.valueOrNull tenant)
  | none => .true

/-- A filter for what an index and a tenant ask of a row, and one question. -/
def askFor (table : TableDef) (index : IndexDef) (row : Row) (question : Expr) : Expr :=
  .and [(indexPredicate index).getD .true, tenantEquality table row, question]

/-- Statistics that prefer nothing. -/
def indifferentStats : TableStats where
  cheaper _ _ := false
  filterFirst _ := false
  termRank _ _ := 0

/-- What the plans for a question are made for. -/
def askContext (table : TableDef) (index : IndexDef) (compute : List Scalar)
    (row : Row) (question : Expr) : MatchContext :=
  matchContext table (askFor table index row question) .all indifferentStats [] compute

omit [Platform] in
theorem constraintsFor_update
    (constraints : Constraints) (ordinal other : Ordinal)
    (change : ColumnConstraints → ColumnConstraints) :
    constraintsFor (constraints.update ordinal change) other =
      if other = ordinal then
        some (change ((constraintsFor constraints ordinal).getD {}))
      else
        constraintsFor constraints other := by
  induction constraints with
  | nil =>
      by_cases isHere : other = ordinal
      · simp [Constraints.update, constraintsFor, isHere]
      · simp [Constraints.update, constraintsFor, isHere, Ne.symm isHere]
  | cons first rest ih =>
      obtain ⟨column, constraint⟩ := first
      rw [Constraints.update]
      by_cases isFirst : column = ordinal
      · by_cases isHere : other = ordinal
        · simp [constraintsFor, isFirst, isHere]
        · simp [constraintsFor, isFirst, isHere, Ne.symm isHere]
      · rw [if_neg isFirst]
        by_cases isOther : column = other
        · have differs : other ≠ ordinal := isOther ▸ isFirst
          simp [constraintsFor, isOther, differs]
        · rw [constraintsFor, find?_cons_of_neg (by simpa using isOther),
            ← constraintsFor, ih]
          simp [constraintsFor, isFirst, isOther]

theorem evaluateOver_indexPredicate
    {index : IndexDef} {row : Row}
    (holdsRow : index.admits row = true) :
    ((indexPredicate index).getD .true).evaluateOver row.get = .true := by
  rw [IndexDef.admits] at holdsRow
  rw [indexPredicate.eq_def]
  cases isPredicate : index.predicate with
  | none => rfl
  | some predicate =>
      rw [isPredicate] at holdsRow
      cases predicate with
      | custom judge respects => rfl
      | expr expression =>
          simp only [Predicate.truth, Expr.evaluate, beq_iff_eq] at holdsRow
          dsimp only [Option.getD]
          split at holdsRow
          · next isTrue => exact isTrue
          · cases holdsRow
          · cases holdsRow

omit [Platform] in
theorem access_of_mem_candidates
    {context : MatchContext} {index : IndexDef} {candidate found : Candidate}
    (wellFormed : context.table.WellFormed)
    (member : index ∈ context.table.indexes)
    (isFound : matchIndex context index = some found)
    (considered : candidate ∈ candidates context (some (.index index.id))) :
    candidate = found := by
  have chosen : found ∈ (context.table.indexes.filter
      (fun other => other.id == index.id)).filterMap (matchIndex context) :=
    mem_filterMap.mpr ⟨index, mem_filter.mpr ⟨member, by simp⟩, isFound⟩
  rw [candidates.eq_def] at considered
  dsimp only at considered
  split at considered
  · next none =>
      rw [none] at chosen
      cases chosen
  · obtain ⟨other, isOther, matched⟩ := mem_filterMap.mp considered
    obtain ⟨inTable, sameId⟩ := mem_filter.mp isOther
    have isSame : other = index :=
      inj_on_of_nodup_map wellFormed.indexIds inTable member (beq_iff_eq.mp sameId)
    rw [isSame, isFound] at matched
    exact (Option.some.inj matched).symm

section

variable
  {table : TableDef}
  {index : IndexDef}
  {row : Row}
  {compute : List Scalar}
  {question : Expr}
  (wellFormed : table.WellFormed)
  (valid : row.validate table = .ok ())

include wellFormed valid

theorem evaluateOver_tenantEquality
    (compute : List Scalar) :
    (tenantEquality table row).evaluateOver
      (extendRow row compute [] none).get = .true := by
  rw [tenantEquality.eq_def]
  split
  · next tenant isTenant =>
      have inKey := mem_of_mem_head? (wellFormed.tenant tenant isTenant)
      obtain ⟨column, found, notNullable, isKeyable, -⟩ := wellFormed.key tenant inKey
      have inside : tenant < row.values.length :=
        Row.width_of_validate valid ▸ (List.getElem?_eq_some_iff.mp found).1
      have held := Row.holds_of_validate wellFormed valid found
      have notNull : (row.valueOrNull tenant).isNull = false := by
        by_contra isNull
        rw [Bool.not_eq_false] at isNull
        exact held.present isKeyable.live notNullable (Value.eq_null_of_isNull isNull)
      refine evaluateCompare_eq_true_iff.mpr
        ⟨row.valueOrNull tenant, ?_, notNull, notNull, ?_⟩
      · rw [get_extendRow compute inside, Row.valueOrNull, Row.get,
          getElem?_eq_getElem inside]
        rfl
      · rw [Value.cmp_self]
        rfl
  · rfl

theorem admits_askFor
    (asked : index.Asked compute row)
    (holds : question.evaluateOver (extendRow row compute [] none).get = .true) :
    (askFor table index row question).admits
      (extendRow row compute [] none) = true := by
  refine (Truth.admits_iff _).mpr ?_
  rw [askFor, Expr.evaluate, Expr.evaluateOver, Expr.evaluateAnd_eq_true_iff]
  exact ⟨rfl, forall_mem_cons.mpr ⟨asked.holds, forall_mem_cons.mpr
    ⟨evaluateOver_tenantEquality wellFormed valid compute,
      forall_mem_singleton.mpr holds⟩⟩⟩

theorem admits_askContext
    (asked : index.Asked compute row)
    (holds : question.evaluateOver (extendRow row compute [] none).get = .true) :
    (askContext table index compute row question).Admits row :=
  admits_matchContext (Row.keyable_of_validate wellFormed valid)
    (admits_askFor wellFormed valid asked holds) _ _ _

/-- The path over an index that plans reach the row with has an entry of it. -/
theorem exists_entry_of_plansReach
    (reach : table.PlansReach)
    (member : index ∈ table.indexes)
    (asked : index.Asked compute row)
    (holds : question.evaluateOver (extendRow row compute [] none).get = .true)
    {found : Candidate}
    (isFound : matchIndex (askContext table index compute row question) index =
      some found)
    {ranges : List KeyRange} {covering : Bool}
    (isRanges : found.access.entryRanges = some (index.id, ranges, covering)) :
    ∃ entry ∈ admittedEntries table index row,
      ∃ range ∈ ranges, range.contains entry.key = true := by
  have admitted := admits_askFor wellFormed valid asked holds
  have conjuncts := (Expr.evaluateOver_eq_true_iff _).mp
    ((Truth.admits_iff _).mp admitted)
  have reaches := reach row _ compute .ascending .all indifferentStats []
    (some (.index index.id)) valid admitted
  rcases access_planHinted table (askFor table index row question) .ascending
    .all indifferentStats [] (some (.index index.id)) compute with
    ⟨refuted, -⟩ | ⟨candidate, considered, isAccess⟩
  · rw [not_unsatisfiable conjuncts] at refuted
    cases refuted
  · have isCandidate := access_of_mem_candidates wellFormed member isFound considered
    rw [isAccess, isCandidate] at reaches
    rcases MatchContext.prunedAccess_cases found.access with
      isSame | isNothing
    · rw [isSame] at reaches
      have within : EntryWithin table row index.id ranges := by
        cases access : found.access with
        | indexScan id range covering
        | indexScans id ranges covering =>
            rw [access] at isRanges reaches
            cases isRanges
            exact reaches
        | _ =>
            rw [access] at isRanges
            cases isRanges
      obtain ⟨other, inIndexes, sameId, entry, inEntries, contained⟩ := within
      obtain rfl : other = index :=
        inj_on_of_nodup_map wellFormed.indexIds inIndexes member sameId
      exact ⟨entry, inEntries, contained⟩
    · rw [isNothing] at reaches
      cases reaches

end

/-! ## Indexes that plans are right about -/

/-- What an index and a tenant ask of a row, as constraints. -/
def askConstraints (table : TableDef) (index : IndexDef) (row : Row) :
    Constraints :=
  collectConstraints (((indexPredicate index).getD .true).conjuncts ++
    (tenantEquality table row).conjuncts)

omit [Platform] in
theorem constraints_askContext
    (table : TableDef) (index : IndexDef) (compute : List Scalar) (row : Row)
    (question : Expr) :
    (askContext table index compute row question).constraints =
      question.conjuncts.foldl collectConstraint (askConstraints table index row) := by
  have isConjuncts : (askFor table index row question).conjuncts =
      ((indexPredicate index).getD .true).conjuncts ++
        (tenantEquality table row).conjuncts ++ question.conjuncts := by
    simp [askFor, Expr.conjuncts, Expr.conjunctsList]
  change collectConstraints (askFor table index row question).conjuncts = _
  rw [isConjuncts, collectConstraints, foldl_append]
  rfl

section

variable {constraints : Constraints} {shown : Columns}
  {fixed : List (Ordinal × Direction)}

omit [Platform] in
/-- Columns that are fixed begin the keys that a filter leaves. -/
theorem matchKey_append
    (met : constraints.Met shown)
    (isFixed : ∀ entry ∈ fixed, (equalsFor constraints entry.1).isSome)
    (base : Bytes) (rest : List (Ordinal × Direction)) :
    matchKey base (fixed ++ rest) constraints =
      matchKey (base ++ encodeColumns shown fixed) rest constraints := by
  have isPrefix : equalityPrefix constraints (fixed ++ rest) =
      (encodeColumns shown fixed ++ (equalityPrefix constraints rest).1,
        (equalityPrefix constraints rest).2) := by
    induction fixed with
    | nil => rfl
    | cons first others ih =>
        obtain ⟨here, later⟩ := forall_mem_cons.mp isFixed
        obtain ⟨value, isValue⟩ := Option.isSome_iff_exists.mp here
        have sameCode : encodeValue first.2 (shown.valueOrNull first.1) =
            encodeValue first.2 value := by
          rw [← encodeValue_canonical, Constraints.canonical_of_equalsFor met
            isValue, encodeValue_canonical]
        rw [cons_append, equalityPrefix, isValue]
        dsimp only
        rw [ih later, ← sameCode, encodeColumns, encodeColumns,
          flatMap_cons, append_assoc]
  rw [matchKey, matchKey, isPrefix]
  simp only [append_assoc]

omit [Platform] in
theorem inRanges_eq_none
    (isFixed : ∀ entry ∈ fixed, (equalsFor constraints entry.1).isSome)
    {ordinal : Ordinal}
    (unlisted : ∀ constraint, constraintsFor constraints ordinal =
      some constraint → constraint.equals.isSome ∨ constraint.anyOf = none)
    (base : Bytes) (direction : Direction) :
    inRanges base (fixed ++ [(ordinal, direction)]) constraints = none := by
  have noneFree : fixed.find?
      (fun entry => (equalsFor constraints entry.1).isNone) = none := by
    rw [find?_eq_none]
    intro entry isEntry
    rw [Option.isNone_iff_eq_none, ← ne_eq, ← Option.isSome_iff_ne_none]
    exact isFixed entry isEntry
  rw [inRanges, find?_append, noneFree, Option.none_or]
  cases found : constraintsFor constraints ordinal with
  | none =>
      rw [find?_cons_of_pos (by simp [equalsFor, found])]
      simp only [Option.bind_eq_bind, Option.bind_some, found, Option.bind_none]
  | some constraint =>
      rcases unlisted constraint found with isSome | isNone
      · rw [find?_cons_of_neg (by
          simp [equalsFor, found, Option.isSome_iff_ne_none.mp isSome])]
        rfl
      · cases isEqual : constraint.equals with
        | some value =>
            rw [find?_cons_of_neg (by simp [equalsFor, found, isEqual])]
            rfl
        | none =>
            rw [find?_cons_of_pos (by simp [equalsFor, found, isEqual])]
            simp only [Option.bind_eq_bind, Option.bind_some, found, isNone,
              Option.bind_none]

omit [Platform] in
/-- A value within the keys of a fixed column is the one it is fixed to. -/
theorem cmp_of_contains_fixed
    {base rest : Bytes} {ordinal : Ordinal} {direction : Direction}
    {value other : Value}
    (contained : (matchKey base [(ordinal, direction)] constraints).contains
      (base ++ (encodeValue direction value ++ rest)) = true)
    (isFixed : equalsFor constraints ordinal = some other) :
    value.cut.cmp other.cut = .eq := by
  rw [matchKey, equalityPrefix, isFixed] at contained
  simp only [equalityPrefix, append_nil, head?_nil,
    KeyRange.contains_ofPrefix] at contained
  have same := (bound_isPrefix_iff _ _ _ _ _).mp contained
  cases direction with
  | asc => exact same
  | desc => exact Ordering.swap_eq_eq.mp same

end

section

variable
  {table : TableDef}
  {index : IndexDef}
  {row : Row}
  {compute : List Scalar}
  {question : Expr}
  (wellFormed : table.WellFormed)
  (valid : row.validate table = .ok ())

include wellFormed valid

omit [Platform] valid in
theorem ne_of_tenant
    {tenant : Ordinal}
    (isTenant : table.tenantColumn = some tenant)
    (position : Nat) :
    tenant ≠ table.columns.length + position := by
  have inKey := mem_of_mem_head? (wellFormed.tenant tenant isTenant)
  obtain ⟨column, isColumn, -⟩ := wellFormed.key tenant inKey
  have inside := (List.getElem?_eq_some_iff.mp isColumn).1
  exact Nat.ne_of_lt (Nat.lt_add_right _ inside)

theorem equalsFor_askConstraints
    {tenant : Ordinal}
    (isTenant : table.tenantColumn = some tenant) :
    equalsFor (askConstraints table index row) tenant =
      some (row.valueOrNull tenant) := by
  have equality := evaluateOver_tenantEquality wellFormed valid []
  rw [tenantEquality, isTenant] at equality
  obtain ⟨-, -, -, notNull, -⟩ := evaluateCompare_eq_true_iff.mp equality
  rw [askConstraints, tenantEquality, isTenant, collectConstraints, foldl_append]
  simp only [Expr.eq, Expr.conjuncts, foldl_cons, foldl_nil, collectConstraint,
    notNull, Bool.false_eq_true, if_false]
  rw [equalsFor, constraintsFor_update, if_pos rfl]
  rfl

omit wellFormed valid in
theorem usable_askContext
    (asked : index.Asked compute row) :
    usable (askContext table index compute row question) index = true := by
  rw [usable]
  split
  · rfl
  · next predicate isPredicate =>
      obtain ⟨expression, isExpression⟩ := Option.isSome_iff_exists.mp
        (asked.planned (by rw [isPredicate]; rfl))
      rw [isExpression]
      change implies (askFor table index row question) expression = true
      rw [askFor, isExpression]
      exact implies_of_mem (mem_cons_self ..)

omit wellFormed valid in
theorem exists_textTerm_askContext
    {column : IndexColumn}
    (isHead : index.columns.head? = some column)
    {word : String}
    (admits : (askContext table index compute row
      (.contains column.ordinal [word])).Admits row) :
    ∃ term, textTerm (askContext table index compute row
      (.contains column.ordinal [word])) index = some term := by
  have isMember : Expr.contains column.ordinal [word] ∈ (askFor table index row
        (.contains column.ordinal [word])).conjuncts := by
    simp [askFor, Expr.conjuncts, Expr.conjunctsList]
  obtain ⟨terms, isTerms⟩ := Option.isSome_iff_exists.mp
    (findSome?_isSome_iff.mpr ⟨_, isMember, by
      rw [containsTerms, if_pos rfl]
      rfl⟩ : ((askFor table index row (.contains column.ordinal
        [word])).conjuncts.findSome? (containsTerms column.ordinal)).isSome = true)
  obtain ⟨conjunct, isConjunct, asks⟩ := exists_of_findSome?_eq_some isTerms
  have holds := (Expr.evaluateOver_eq_true_iff _).mp admits.holds conjunct isConjunct
  rw [containsTerms.eq_def] at asks
  split at asks
  · split at asks
    · cases asks
      rw [textTerm, isHead]
      change ∃ term, (do
        let terms ← (askFor table index row
          (.contains column.ordinal [word])).conjuncts.findSome?
            (containsTerms column.ordinal)
        rarestTerm _ terms) = some term
      rw [isTerms]
      cases terms with
      | nil =>
          rw [Expr.evaluateOver, evaluateContains] at holds
          split at holds <;> cases holds
      | cons first rest =>
          simp only [Option.bind_eq_bind, Option.bind_some, rarestTerm]
          split
          · exact ⟨_, rfl⟩
          · split <;> exact ⟨_, rfl⟩
    · cases asks
  · cases asks

/-- What a text index that plans reach the row with is like. -/
theorem shows_of_text
    (reach : table.PlansReach)
    (member : index ∈ table.indexes)
    (asked : index.Asked compute row)
    (isText : index.text = true) :
    index.Shows table compute row := by
  obtain ⟨-, notComputed, column, declared, single, -⟩ :=
    (wellFormed.indexes index member).text isText
  have isHead : index.columns.head? = some column := by
    rw [single]
    rfl
  have worded := asked.worded isText
  rw [IndexDef.keySets] at worded
  simp only [isText, Bool.not_true, Bool.false_eq_true, if_false, isHead] at worded
  split at worded
  · next text isValue =>
      obtain ⟨values, isValues⟩ := exists_mem_of_ne_nil _ worded
      obtain ⟨word, isWord, -⟩ := mem_map.mp isValues
      obtain ⟨_, found, -⟩ := (wellFormed.indexes index member).usable column
        (mem_of_mem_head? isHead)
      have inside : column.ordinal < row.values.length :=
        Row.width_of_validate valid ▸ (List.getElem?_eq_some_iff.mp found).1
      have holds : (Expr.contains column.ordinal [word]).evaluateOver
          (extendRow row compute [] none).get = .true := by
        rw [Expr.evaluateOver, evaluateContains, get_extendRow compute inside, isValue]
        simpa using isWord
      have admits := admits_askContext wellFormed valid asked holds
      obtain ⟨term, isTerm⟩ := exists_textTerm_askContext isHead admits
      have matched : ∃ found, matchIndex (askContext table index compute row
          (.contains column.ordinal [word])) index = some found := by
        rw [matchIndex, usable_askContext asked, if_neg (by decide), if_pos isText,
          matchTextIndex, isTerm, constraints_askContext]
        simp only [Option.bind_eq_bind, Option.bind_some]
        cases isTenant : (askContext table index compute row
            (.contains column.ordinal [word])).table.tenantColumn with
        | none => exact ⟨_, rfl⟩
        | some tenant =>
            simp only [Expr.conjuncts, foldl_cons, foldl_nil, collectConstraint]
            rw [equalsFor_askConstraints wellFormed valid isTenant]
            exact ⟨_, rfl⟩
      obtain ⟨found, isFound⟩ := matched
      have isPath := isFound
      rw [matchIndex, usable_askContext asked, if_neg (by decide),
        if_pos isText] at isPath
      obtain ⟨term', -, isAccess⟩ := MatchContext.access_of_matchTextIndex admits isPath
      obtain ⟨entry, inEntries, range, isRange, contained⟩ :=
        exists_entry_of_plansReach wellFormed valid reach member asked holds
          isFound (congrArg Access.entryRanges isAccess)
      rw [mem_singleton.mp isRange, KeyRange.contains_ofPrefix] at contained
      refine ⟨(mem_admittedEntries.mp inEntries).1, fun _ =>
        MatchContext.ascending_of_isPrefix wellFormed admits member isText
          inEntries contained, fun position isPosition => ?_⟩
      rw [MatchContext.expressionPosition_of_plain notComputed] at isPosition
      cases isPosition
  · exact absurd rfl worded

/-- The path over an index whose key is fixed up to its last column. -/
theorem exists_entry_of_question
    (reach : table.PlansReach)
    (member : index ∈ table.indexes)
    (asked : index.Asked compute row)
    (holds : question.evaluateOver (extendRow row compute [] none).get = .true)
    (notText : index.text = false)
    {keyColumns : List (Ordinal × Direction)}
    (isKey : indexKeyColumns (askContext table index compute row question)
      index = some keyColumns) :
    ∃ entry ∈ admittedEntries table index row,
      inRanges (indexPrefix table index none) keyColumns
          (askContext table index compute row question).constraints = none →
        (matchKey (indexPrefix table index none) keyColumns
          (askContext table index compute row question).constraints).contains
            entry.key = true := by
  have matched : ∃ found, matchIndex (askContext table index compute row
      question) index = some found ∧ ∃ ranges covering, found.access.entryRanges =
          some (index.id, ranges, covering) ∧
        (inRanges (indexPrefix table index none) keyColumns
          (askContext table index compute row question).constraints = none →
          ranges = [matchKey (indexPrefix table index none) keyColumns
            (askContext table index compute row question).constraints]) := by
    rw [matchIndex, usable_askContext asked, if_neg (by decide), notText,
      if_neg (by decide), isKey]
    simp only [Option.bind_eq_bind, Option.bind_some]
    split
    · next made =>
        refine ⟨_, rfl, _, _, rfl, fun isNone => ?_⟩
        cases isNone.symm.trans made
    · next made =>
        refine ⟨_, rfl, _, _, rfl, fun isNone => ?_⟩
        cases isNone.symm.trans made
    · exact ⟨_, rfl, _, _, rfl, fun _ => rfl⟩
  obtain ⟨found, isFound, ranges, covering, isRanges, single⟩ := matched
  obtain ⟨entry, inEntries, range, isRange, contained⟩ := exists_entry_of_plansReach
    wellFormed valid reach member asked holds isFound isRanges
  refine ⟨entry, inEntries, fun isNone => ?_⟩
  rw [single isNone, mem_singleton] at isRange
  rwa [← isRange]

variable {declared : IndexExpression} {position : Nat}

/-- The value that an index holds is within what is asked of its column. -/
theorem exists_contains_of_question
    (reach : table.PlansReach)
    (member : index ∈ table.indexes)
    (asked : index.Asked compute row)
    (isExpression : index.expression = some declared)
    (isPosition : expressionPosition index compute = some position)
    (holds : question.evaluateOver (extendRow row compute [] none).get = .true)
    {change : ColumnConstraints → ColumnConstraints}
    (isConstraints : (askContext table index compute row question).constraints =
      (askConstraints table index row).update (table.columns.length + position) change)
    {asks : ColumnConstraints}
    (isAsked : change ((constraintsFor (askConstraints table index row)
      (table.columns.length + position)).getD {}) = asks)
    (unlisted : asks.equals.isSome ∨ asks.anyOf = none) :
    ∃ constraints base rest,
      constraintsFor constraints (table.columns.length + position) = some asks ∧
      (matchKey base [(table.columns.length + position, declared.direction)]
        constraints).contains (base ++ (encodeValue declared.direction
          (declared.compute.value row) ++ rest)) = true := by
  have notText : index.text = false := by
    rw [← Bool.not_eq_true]
    intro isText
    rw [((wellFormed.indexes index member).text isText).2.1] at isExpression
    cases isExpression
  have admits := admits_askContext wellFormed valid asked holds
  have isKey : indexKeyColumns (askContext table index compute row question)
      index = some (MatchContext.tenantColumns table ++
        [(table.columns.length + position, declared.direction)]) := by
    rw [indexKeyColumns, isExpression]
    change (expressionPosition index compute).map _ = _
    rw [isPosition]
    rfl
  have here := constraintsFor_update (askConstraints table index row)
    (table.columns.length + position) (table.columns.length + position) change
  rw [if_pos rfl, isAsked, ← isConstraints] at here
  have isFixed : ∀ entry ∈ MatchContext.tenantColumns table,
      (equalsFor (askContext table index compute row question).constraints
        entry.1).isSome := by
    intro entry inTenant
    rw [MatchContext.tenantColumns] at inTenant
    split at inTenant
    · next tenant isTenant =>
        rw [mem_singleton.mp inTenant, isConstraints, equalsFor,
          constraintsFor_update, if_neg (ne_of_tenant wellFormed isTenant position),
          ← equalsFor, equalsFor_askConstraints wellFormed valid isTenant]
        rfl
    · cases inTenant
  obtain ⟨entry, inEntries, contained⟩ := exists_entry_of_question wellFormed
    valid reach member asked holds notText isKey
  have within := contained (inRanges_eq_none isFixed (fun other found => by
    cases here.symm.trans found
    exact unlisted) _ _)
  rw [matchKey_append admits.met isFixed] at within
  obtain ⟨-, values, isSet, rfl⟩ := mem_admittedEntries.mp inEntries
  rw [IndexDef.keySets, notText] at isSet
  obtain rfl := mem_singleton.mp isSet
  have isKeyed : (index.keyValues row).zip index.keyDirections =
      [(declared.compute.value row, declared.direction)] := by
    rw [IndexDef.keyValues, IndexDef.keyDirections, isExpression]
    rfl
  have slots : slotBytes table index (index.keyValues row)
      (row.primaryKeyValues table) = encodeColumns (extendRow row compute [] none).get
            (MatchContext.tenantColumns table) ++
          ((index.keyValues row).zip index.keyDirections).flatMap
            (fun pair => encodeValue pair.2 pair.1) :=
    MatchContext.encodeColumns_tenantColumns wellFormed admits index _
  rw [isKeyed, flatMap_singleton] at slots
  rw [indexEntry_eq, ← MatchContext.indexPrefix_none table, entryBytes, slots] at within
  generalize (if slotIsUnique index (index.keyValues row) = true then [] else
    encode (row.primaryKeyValues table)) = rest at within
  refine ⟨_, indexPrefix table index none ++ encodeColumns (extendRow row compute []
    none).get (MatchContext.tenantColumns table), rest, here, ?_⟩
  simp only [append_assoc] at within ⊢
  exact within

/-- Nothing is asked of a column past the table's, where it is not null. -/
theorem constraintsFor_askConstraints
    (asked : index.Asked compute row)
    (holdsRow : index.admits row = true)
    {ordinal : Ordinal}
    (outside : table.columns.length ≤ ordinal)
    {value : Value}
    (isValue : (extendRow row compute [] none).get ordinal = some value)
    (notNull : value.isNull = false)
    {constraint : ColumnConstraints}
    (found : constraintsFor (askConstraints table index row) ordinal =
      some constraint) :
    constraint.equals = none ∧ constraint.anyOf = none := by
  have collected : ∀ compute : List Scalar,
      ((indexPredicate index).getD .true).evaluateOver
        (extendRow row compute [] none).get = .true →
      (askConstraints table index row).Met (extendRow row compute [] none).get := by
    intro compute holds
    refine Constraints.met_collectConstraints (forall_mem_append.mpr ⟨?_, ?_⟩)
    · exact (Expr.evaluateOver_eq_true_iff _).mp holds
    · exact (Expr.evaluateOver_eq_true_iff _).mp
        (evaluateOver_tenantEquality wellFormed valid compute)
  have met := Constraints.met_of_constraintsFor (collected compute asked.holds) found
  have metStored := Constraints.met_of_constraintsFor
    (collected [] (evaluateOver_indexPredicate holdsRow)) found
  have isNull : (extendRow row [] [] none).get.valueOrNull ordinal = .null := by
    have width := Row.width_of_validate valid
    have missing : row.values[ordinal]? = none := getElem?_eq_none (width ▸ outside)
    exact congrArg (Option.getD · Value.null) missing
  rw [isNull] at metStored
  rw [Columns.valueOrNull, isValue, Option.getD_some] at met
  constructor
  · cases isEqual : constraint.equals with
    | none => rfl
    | some wanted =>
        have same := (met.equals wanted isEqual).trans
          (metStored.equals wanted isEqual).symm
        rw [isNull_respects.eq same] at notNull
        cases notNull
  · cases isList : constraint.anyOf with
    | none => rfl
    | some values =>
        obtain ⟨wanted, -, present, same⟩ := metStored.anyOf values isList
        rw [isNull_respects.eq same] at present
        cases present

/-- What plans ask of a computed column is true of the value that is held. -/
theorem apply_of_question
    (reach : table.PlansReach)
    (member : index ∈ table.indexes)
    (asked : index.Asked compute row)
    (holdsRow : index.admits row = true)
    (isExpression : index.expression = some declared)
    (isPosition : expressionPosition index compute = some position)
    {value other : Value}
    (isValue : (extendRow row compute [] none).get
      (table.columns.length + position) = some value)
    (notNull : value.isNull = false)
    (notNull' : other.isNull = false)
    {op : CmpOp}
    (strict : op = .eq ∨ op = .lt ∨ op = .gt)
    (applies : op.apply (value.cmp other) = true) :
    op.apply ((declared.compute.value row).cut.cmp other.cut) = true := by
  have holds : (Expr.compare (table.columns.length + position) op
      other).evaluateOver (extendRow row compute [] none).get = .true :=
    evaluateCompare_eq_true_iff.mpr ⟨value, isValue, notNull, notNull', applies⟩
  have bare : ((constraintsFor (askConstraints table index row)
      (table.columns.length + position)).getD {}).equals = none ∧
      ((constraintsFor (askConstraints table index row)
        (table.columns.length + position)).getD {}).anyOf = none := by
    cases found : constraintsFor (askConstraints table index row)
        (table.columns.length + position) with
    | none => exact ⟨rfl, rfl⟩
    | some constraint =>
        exact constraintsFor_askConstraints wellFormed valid asked holdsRow
          (Nat.le_add_right _ _) isValue notNull found
  have isConstraints := constraints_askContext table index compute row
    (.compare (table.columns.length + position) op other)
  simp only [Expr.conjuncts, foldl_cons, foldl_nil, collectConstraint, notNull',
    Bool.false_eq_true, if_false] at isConstraints
  rcases strict with rfl | isStrict
  · obtain ⟨constraints, base, rest, here, contained⟩ := exists_contains_of_question
      wellFormed valid reach member asked isExpression isPosition holds isConstraints
      rfl (Or.inl rfl)
    exact beq_iff_eq.mpr (cmp_of_contains_fixed contained
      (by rw [equalsFor, here]; rfl))
  · have strictly := isStrict
    rcases isStrict with rfl | rfl
    all_goals
      obtain ⟨constraints, base, rest, here, contained⟩ := exists_contains_of_question
        wellFormed valid reach member asked isExpression isPosition holds
        isConstraints rfl (Or.inr bare.2)
      rw [matchKey, equalityPrefix, equalsFor, here] at contained
      simp only [Option.bind_some, bare.1, head?_cons, here, append_nil] at contained
      rw [if_neg (by simp)] at contained
      exact apply_of_contains_boundFor strictly ((contains_foldl.mp contained).2
        (_, other) (mem_append_right _ (mem_singleton.mpr rfl)))

/-- A computed column that is null is held as a null. -/
theorem cmp_null_of_question
    (reach : table.PlansReach)
    (member : index ∈ table.indexes)
    (asked : index.Asked compute row)
    (isExpression : index.expression = some declared)
    (isPosition : expressionPosition index compute = some position)
    (isNull : (extendRow row compute [] none).get
      (table.columns.length + position) = some .null) :
    (declared.compute.value row).cut.cmp Value.null.cut = .eq := by
  have holds : (Expr.isNull (table.columns.length + position) false).evaluateOver
      (extendRow row compute [] none).get = .true := by
    rw [Expr.evaluateOver, isNull]
    rfl
  obtain ⟨constraints, base, rest, here, contained⟩ := exists_contains_of_question
    wellFormed valid reach member asked isExpression isPosition holds
    (constraints_askContext ..) rfl (Or.inl rfl)
  exact cmp_of_contains_fixed contained (by rw [equalsFor, here]; rfl)

/-- What an index without words that plans reach the row with is like. -/
theorem shows_of_plain
    (reach : table.PlansReach)
    (member : index ∈ table.indexes)
    (asked : index.Asked compute row)
    (notText : index.text = false) :
    index.Shows table compute row := by
  have isKey : ∃ keyColumns, indexKeyColumns
      (askContext table index compute row .true) index = some keyColumns := by
    rw [indexKeyColumns]
    cases isExpression : index.expression with
    | none => exact ⟨_, rfl⟩
    | some declared =>
        obtain ⟨position, isPosition⟩ := Option.isSome_iff_exists.mp
          (asked.keyed (by rw [isExpression]; rfl))
        exact ⟨_, Option.map_eq_some_iff.mpr ⟨position, isPosition, rfl⟩⟩
  obtain ⟨keyColumns, isKey⟩ := isKey
  obtain ⟨_, inEntries, -⟩ := exists_entry_of_question wellFormed valid reach
    member asked (show Expr.true.evaluateOver _ = .true from rfl) notText isKey
  have holdsRow := (mem_admittedEntries.mp inEntries).1
  refine ⟨holdsRow, by simp [notText], ?_⟩
  intro position isPosition held isHeld other
  obtain ⟨expression, isScalar, found⟩ := Option.bind_eq_some_iff.mp isPosition
  obtain ⟨declared, isExpression⟩ : ∃ declared, index.expression = some declared := by
    rw [indexExpression.eq_def] at isScalar
    split at isScalar
    · next isExpression => exact ⟨_, isExpression⟩
    · cases isScalar
  have isValue : held = declared.compute.value row := by
    rw [IndexDef.keyValues, isExpression] at isHeld
    exact mem_singleton.mp isHeld
  subst isValue
  obtain ⟨inside, -, -⟩ := findIdx?_eq_some_iff_getElem.mp found
  have within : table.columns.length + position <
      (extendRow row compute [] none).values.length := by
    rw [length_extendRow, Row.width_of_validate valid]
    exact Nat.add_lt_add_left inside _
  generalize isGot : (extendRow row compute [] none).values[
    table.columns.length + position] = value
  have isGet : (extendRow row compute [] none).get
      (table.columns.length + position) = some value := by
    rw [Row.get, getElem?_eq_getElem within, isGot]
  rw [Columns.valueOrNull, isGet, Option.getD_some]
  cases notNull : value.isNull with
  | true =>
      obtain rfl := Value.eq_null_of_isNull notNull
      have isHeldNull := cmp_null_of_question wellFormed valid reach member
        asked isExpression isPosition isGet
      rw [(cmp_respects_left other.cut).eq
        ((Value.cmp_eq_iff_canonical _ _).mp isHeldNull)]
      exact Value.ordered_of_isKeyable rfl other
  | false =>
      have asks {other : Value} (notNull' : other.isNull = false) (op : CmpOp) :=
        @apply_of_question _ _ _ _ _ wellFormed valid _ _ reach member asked holdsRow
          isExpression isPosition _ other isGet notNull notNull' op
      cases notNull' : other.isNull with
      | true =>
          -- A null compares by its class, which the value that is held shares.
          obtain rfl := Value.eq_null_of_isNull notNull'
          have same := beq_iff_eq.mp (asks notNull .eq (Or.inl rfl)
            (by rw [Value.cmp_self]; rfl))
          have differ : value.classRank ≠ Value.null.classRank := by
            cases value <;> simp_all [Value.classRank, Value.isNull]
          rw [(cmp_respects_left _).eq ((Value.cmp_eq_iff_canonical _ _).mp same),
            Value.cmp_of_classRank_ne differ, Value.cmp_of_classRank_ne (by
              rwa [Value.classRank_cut]), Value.classRank_cut]
          rfl
      | false =>
          cases order : value.cmp other with
          | eq =>
              exact beq_iff_eq.mp (asks notNull' .eq (Or.inl rfl)
                (beq_iff_eq.mpr order))
          | lt =>
              exact (CmpOp.apply_lt_iff _).mp (asks notNull' .lt
                (Or.inr (Or.inl rfl)) ((CmpOp.apply_lt_iff _).mpr order))
          | gt =>
              exact (CmpOp.apply_gt_iff _).mp (asks notNull' .gt
                (Or.inr (Or.inr rfl)) ((CmpOp.apply_gt_iff _).mpr order))

end

/--
Plans lose no rows of a table exactly when each index that they can be made to
read has the row's entries where they look: it admits the row, is not a text
index over a descending column, and holds a value that compares as the column
that the query computes.
-/
theorem plansReach_iff
    {builder : TableBuilder} {table : TableDef}
    (built : builder.build = .ok table) :
    table.PlansReach ↔ ∀ index ∈ table.indexes, ∀ (row : Row) (compute : List Scalar),
        row.validate table = .ok () → index.Asked compute row →
          index.Shows table compute row := by
  have wellFormed := TableBuilder.build_wellFormed built
  constructor
  · intro reach index member row compute valid asked
    cases isText : index.text with
    | true => exact shows_of_text wellFormed valid reach member asked isText
    | false => exact shows_of_plain wellFormed valid reach member asked isText
  · intro shows row predicate compute order projection stats sort hint valid admitted
    have keyable := Row.keyable_of_validate wellFormed valid
    have admits := admits_matchContext keyable admitted projection stats sort
    refine reaches_planHinted wellFormed keyable admitted order projection
      stats sort hint (fun index member candidate matched _ => ?_)
    have shown := shows index member row compute valid
      (MatchContext.asked_of_matchIndex wellFormed admits member matched)
    exact ⟨shown.admits, shown.ascending, _,
      admits.held_of_stands wellFormed member shown.stands⟩

end

/-! ## Reaching a poem -/

/-- A poem that is searched for by a word is reached. -/
theorem plansReach_poems :
    let _ : Platform := asciiPlatform
    (planHinted (poems .asc) (.contains 1 ["b"]) .ascending .all
      indifferentStats [] (some (.index 1)) []).access.Reaches (poems .asc)
      ⟨[.i64 7, .str "a b"]⟩ := by
  intro _
  refine (plansReach_iff (built_poems .asc)).mpr ?_ _ _ _ _ _ _ _ _ rfl
    (by decide +kernel)
  intro index member row compute valid asked
  rw [mem_singleton.mp member]
  refine ⟨rfl, fun _ column isColumn => ?_, fun position isPosition => ?_⟩
  · rw [mem_singleton.mp isColumn]
  · cases isPosition

/-- A poem is lost when its words are indexed in descending order. -/
theorem not_plansReach_descending :
    ¬∀ (_ : Platform) (builder : TableBuilder) (table : TableDef),
      builder.build = .ok table → table.PlansReach := by
  intro always
  let _ : Platform := asciiPlatform
  have isTerm : "b" ∈ tokenize "a b" := by
    decide +kernel
  have asked : (poemsWords .desc).Asked [] ⟨[.i64 7, .str "a b"]⟩ := by
    refine ⟨by simp [poemsWords], rfl, by simp [poemsWords], fun _ empty => ?_⟩
    rw [map_eq_nil_iff.mp empty] at isTerm
    cases isTerm
  have shows := shows_of_text (TableBuilder.build_wellFormed (built_poems .desc)) rfl
    (always asciiPlatform (poemsBuilder .desc) (poems .desc)
      (built_poems .desc)) (mem_singleton.mpr rfl) asked rfl
  cases shows.ascending rfl _ (mem_singleton.mpr rfl)

end SlateOrm
