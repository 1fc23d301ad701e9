import SlateOrm.Planner
import SlateOrm.KeyLayout
import SlateOrm.KeyRangeLaws

namespace SlateOrm

open List Keys Option MatchContext

/-!
# Where plans read

Whatever a query says and whatever the statistics prefer, a plan reads keys of
the table it is for, or of one index of that table.
-/

/-- A range narrowed by bounds holds what meets every bound. -/
theorem contains_foldl
    {keyPrefix key : Bytes} {direction : Direction}
    {bounds : List (CmpOp × Value)} {range : KeyRange} :
    (bounds.foldl (fun range bound => range.intersect
        (boundFor keyPrefix bound.1 bound.2 direction)) range).contains key = true ↔
      range.contains key = true ∧ ∀ bound ∈ bounds,
        (boundFor keyPrefix bound.1 bound.2 direction).contains key =
          true := by
  induction bounds generalizing range with
  | nil => simp
  | cons bound rest ih =>
      rw [foldl_cons, ih, KeyRange.contains_intersect, forall_mem_cons, and_assoc]

variable {keyColumns : List (Ordinal × Direction)} {constraints : Constraints}

section

variable
  {base : Bytes}
  {key : Bytes}
  (contained : (matchKey base keyColumns constraints).contains key = true)

include contained

theorem equalityPrefix_isPrefix :
    base ++ (equalityPrefix constraints keyColumns).1 <+: key := by
  rw [matchKey] at contained
  split at contained
  next bytes unbound isPrefix =>
  rw [isPrefix]
  dsimp only at contained ⊢
  split at contained
  · exact (KeyRange.contains_ofPrefix _ _).mp contained
  · split at contained
    · exact (KeyRange.contains_ofPrefix _ _).mp contained
    · split at contained
      · split at contained
        · next start _ =>
            exact (prefix_append _ start).trans
              ((KeyRange.contains_ofPrefix _ _).mp contained)
        · exact (KeyRange.contains_ofPrefix _ _).mp contained
      · exact (KeyRange.contains_ofPrefix _ _).mp (contains_foldl.mp contained).1

/-- A matched range stays under the bytes it was given. -/
theorem isPrefix_of_contains_matchKey :
    base <+: key :=
  (prefix_append base _).trans (equalityPrefix_isPrefix contained)

end

/-- The index and the ranges that a path reads entries from. -/
def Access.entryRanges : Access → Option (IndexId × List KeyRange × Bool)
  | .indexScan index range covering => some (index, [range], covering)
  | .indexScans index ranges covering => some (index, ranges, covering)
  | _ => none

/-- Entries of one index of a table that a plan reads. -/
structure MatchContext.ReadsEntries (context : MatchContext)
    (id : IndexId) (ranges : List KeyRange) (covering : Bool) : Prop where
  index : ∃ index ∈ context.table.indexes, index.id = id ∧
    (covering = true → covers context index = true) ∧
    (index.text = true ∨ (indexKeyColumns context index).isSome = true)
  within : ∀ range ∈ ranges, ∀ key, range.contains key = true → Keys.OfIndex id key

/-- Keys of a table, or of one of its indexes, that a plan reads. -/
def MatchContext.ReadsFrom (context : MatchContext) : Access → Prop
  | .tableScan range => ∀ key, range.contains key = true →
      Keys.tablePrefix context.table <+: key
  | .indexScan id range covering => context.ReadsEntries id [range] covering
  | .indexScans id ranges covering => context.ReadsEntries id ranges covering
  | _ => True

namespace MatchContext

variable {context : MatchContext}

/-- A table scan stays among the rows of its table. -/
theorem readsFrom_matchPrimaryKey
    (context : MatchContext) (constraints : Constraints) (ordered : Bool) :
    context.ReadsFrom (matchPrimaryKey context.table constraints ordered).access := by
  have scans : context.ReadsFrom (.tableScan (matchKey (tablePrefix context.table)
        (primaryKeyColumns context.table) constraints)) :=
    fun key contained => isPrefix_of_contains_matchKey contained
  rw [matchPrimaryKey]
  split
  · split
    · exact scans
    · trivial
  · exact scans

variable {candidate : Candidate} {constraints : Constraints} {index : IndexDef}
  {keyColumns : List (Ordinal × Direction)}

theorem readsFrom_matchPointGets
    (matched : matchPointGets context.table constraints = some candidate) :
    context.ReadsFrom candidate.access := by
  obtain ⟨keys, _, rfl⟩ := map_eq_some_iff.mp matched
  trivial

theorem indexPrefix_none
    (table : TableDef) (index : IndexDef) :
    indexPrefix table index none = header INDEX_SPACE index.id := by
  rw [indexPrefix.eq_def]
  cases table.tenantColumn <;> exact append_nil _

theorem ofIndex_of_isPrefix
    {table : TableDef} {bytes key : Bytes}
    (begins : indexPrefix table index none ++ bytes <+: key) :
    OfIndex index.id key := by
  obtain ⟨rest, rfl⟩ := begins
  rw [indexPrefix_none, append_assoc]
  exact ⟨_, rfl⟩

theorem ofIndex_of_matchKey
    {table : TableDef} {key : Bytes}
    (contained : (matchKey (indexPrefix table index none) keyColumns
      constraints).contains key = true) :
    OfIndex index.id key := by
  have begins := isPrefix_of_contains_matchKey contained
  rw [← append_nil (indexPrefix table index none)] at begins
  exact ofIndex_of_isPrefix begins

theorem exists_of_mem_inRanges
    {base : Bytes} {ranges : List KeyRange}
    (made : inRanges base keyColumns constraints = some ranges) :
    ∀ range ∈ ranges, ∃ pinned, range = matchKey base keyColumns pinned := by
  intro range member
  rw [inRanges] at made
  obtain ⟨⟨ordinal, direction⟩, _, made⟩ := bind_eq_some_iff.mp made
  obtain ⟨constraint, _, made⟩ := bind_eq_some_iff.mp made
  obtain ⟨values, _, made⟩ := bind_eq_some_iff.mp made
  split at made
  · cases made
  · dsimp only at made
    split at made
    · cases made
    · split at made
      · cases made
      · obtain rfl := some.inj made
        have inRanges := mem_insertionSort _ |>.mp member
        obtain ⟨value, _, isRange⟩ := mem_map.mp (mem_filter.mp inRanges).1
        exact ⟨_, isRange.symm⟩

/-- A search for terms stays among the entries of its text index. -/
theorem readsFrom_matchTextIndex
    (member : index ∈ context.table.indexes)
    (isText : index.text = true)
    (matched : matchTextIndex context index = some candidate) :
    context.ReadsFrom candidate.access := by
  rw [matchTextIndex] at matched
  obtain ⟨term, _, matched⟩ := bind_eq_some_iff.mp matched
  dsimp only at matched
  have reads : ∀ bytes : Bytes, context.ReadsEntries index.id [KeyRange.ofPrefix
        (indexPrefix context.table index none ++ bytes)] false := by
    intro bytes
    refine ⟨⟨index, member, rfl, nofun, Or.inl isText⟩, ?_⟩
    intro range isRange key contained
    rw [mem_singleton.mp isRange, KeyRange.contains_ofPrefix] at contained
    exact ofIndex_of_isPrefix contained
  split at matched
  · cases matched
    exact reads _
  · obtain ⟨keyPrefix, isPrefix, matched⟩ := bind_eq_some_iff.mp matched
    obtain ⟨value, _, rfl⟩ := map_eq_some_iff.mp isPrefix
    cases matched
    rw [append_assoc]
    exact reads _

/-- An index scan stays among the entries of its index. -/
theorem readsFrom_matchIndex
    (member : index ∈ context.table.indexes)
    (matched : matchIndex context index = some candidate) :
    context.ReadsFrom candidate.access := by
  rw [matchIndex] at matched
  split at matched
  · cases matched
  · split at matched
    · next isText => exact readsFrom_matchTextIndex member isText matched
    · obtain ⟨keyColumns, isKey, matched⟩ := bind_eq_some_iff.mp matched
      have isIndex : ∃ other ∈ context.table.indexes, other.id = index.id ∧
          (covers context index = true → covers context other = true) ∧
          (other.text = true ∨ (indexKeyColumns context other).isSome = true) :=
        ⟨index, member, rfl, id, Or.inr (isKey ▸ rfl)⟩
      dsimp only at matched
      split at matched
      · next range made =>
          cases matched
          refine ⟨isIndex, fun range' isRange key contained => ?_⟩
          obtain ⟨pinned, rfl⟩ := exists_of_mem_inRanges made range' isRange
          exact ofIndex_of_matchKey contained
      · next ranges _ made =>
          cases matched
          refine ⟨isIndex, fun range isRange key contained => ?_⟩
          obtain ⟨pinned, rfl⟩ := exists_of_mem_inRanges made range isRange
          exact ofIndex_of_matchKey contained
      · cases matched
        refine ⟨isIndex, fun range isRange key contained => ?_⟩
        rw [mem_singleton.mp isRange] at contained
        exact ofIndex_of_matchKey contained

theorem entryRanges_of_matchIndex
    (matched : matchIndex context index = some candidate) :
    ∃ ranges covering,
      candidate.access.entryRanges = some (index.id, ranges, covering) := by
  rw [matchIndex] at matched
  split at matched
  · cases matched
  · split at matched
    · rw [matchTextIndex] at matched
      obtain ⟨term, _, matched⟩ := bind_eq_some_iff.mp matched
      dsimp only at matched
      split at matched
      · cases matched
        exact ⟨_, _, rfl⟩
      · obtain ⟨keyPrefix, _, matched⟩ := bind_eq_some_iff.mp matched
        cases matched
        exact ⟨_, _, rfl⟩
    · obtain ⟨keyColumns, _, matched⟩ := bind_eq_some_iff.mp matched
      dsimp only at matched
      split at matched
      all_goals
        cases matched
        exact ⟨_, _, rfl⟩

variable {hint : Option AccessHint}

/-- What holds of each kind of path holds of every path considered. -/
theorem forall_candidates
    {property : Candidate → Prop}
    (primary : property
      (matchPrimaryKey context.table context.constraints context.ordered))
    (points : ∀ candidate ∈ (matchPointGets context.table context.constraints).toList,
      property candidate)
    (indexed : ∀ chosen ⊆ context.table.indexes,
      ∀ candidate ∈ chosen.filterMap (matchIndex context), property candidate) :
    ∀ candidate ∈ candidates context hint, property candidate := by
  intro candidate member
  rw [candidates.eq_def] at member
  dsimp only at member
  split at member
  · rcases mem_append.mp member with direct | ofIndex
    · rcases mem_cons.mp direct with rfl | isPoint
      · exact primary
      · exact points candidate isPoint
    · exact indexed _ (List.Subset.refl _) candidate ofIndex
  · rcases mem_cons.mp member with rfl | isPoint
    · exact primary
    · exact points candidate isPoint
  · split at member
    · rw [mem_singleton.mp member]
      exact primary
    · exact indexed _ filter_sublist.subset candidate member

theorem readsFrom_candidates :
    ∀ candidate ∈ candidates context hint, context.ReadsFrom candidate.access := by
  refine forall_candidates ?_ ?_ ?_
  · exact readsFrom_matchPrimaryKey context context.constraints context.ordered
  · intro candidate member
    exact readsFrom_matchPointGets (mem_toList.mp member)
  · intro chosen inTable candidate member
    obtain ⟨index, isChosen, matched⟩ := mem_filterMap.mp member
    exact readsFrom_matchIndex (inTable isChosen) matched

theorem matchIndex_of_candidates :
    ∀ candidate ∈ candidates context hint, ∀ id ranges covering,
      candidate.access.entryRanges = some (id, ranges, covering) →
        ∃ index ∈ context.table.indexes, index.id = id ∧
          matchIndex context index = some candidate := by
  refine forall_candidates ?_ ?_ ?_
  · intro id ranges covering isAccess
    rw [matchPrimaryKey] at isAccess
    split at isAccess
    · split at isAccess <;> cases isAccess
    · cases isAccess
  · intro candidate member id ranges covering isAccess
    obtain ⟨named, _, rfl⟩ := map_eq_some_iff.mp (mem_toList.mp member)
    cases isAccess
  · intro chosen inTable candidate member id ranges covering isAccess
    obtain ⟨index, isChosen, matched⟩ := mem_filterMap.mp member
    obtain ⟨_, _, isRanges⟩ := entryRanges_of_matchIndex matched
    cases isAccess.symm.trans isRanges
    exact ⟨index, inTable isChosen, rfl, matched⟩

/-- The cheapest of the paths is one of them. -/
theorem cheapest_mem
    (stats : TableStats) (estimated : Candidate → Estimated) (best : Candidate)
    (others : List Candidate) :
    cheapest stats estimated best others ∈ best :: others := by
  induction others generalizing best with
  | nil => exact mem_singleton.mpr rfl
  | cons candidate rest ih =>
      rw [cheapest]
      split
      · exact mem_cons_of_mem _ (ih candidate)
      · rcases mem_cons.mp (ih best) with
          isBest | inRest
        · rw [isBest]
          exact mem_cons_self ..
        · exact mem_cons_of_mem _ (mem_cons_of_mem _ inRest)

/-- Pruning keeps an access or finds that it reads nothing. -/
theorem prunedAccess_cases
    (access : Access) :
    prunedAccess access = access ∨ prunedAccess access = .nothing := by
  cases access with
  | tableScan range
  | indexScan id range covering
  | indexScans id ranges covering =>
      rw [prunedAccess]
      exact (ite_eq_or_eq _ _ _).symm
  | _ => exact Or.inl rfl

theorem ReadsFrom.pruned
    {access : Access} (readsFrom : context.ReadsFrom access) :
    context.ReadsFrom (prunedAccess access) := by
  rcases prunedAccess_cases access with isSame | isNothing
  · rw [isSame]
    exact readsFrom
  · rw [isNothing]
    trivial

end MatchContext

/-- What the paths of a query are made for. -/
def matchContext (table : TableDef) (predicate : Expr)
    (projection : Projection) (stats : TableStats) (sort : List SortKey)
    (compute : List Scalar) : MatchContext where
  table := table
  predicate := predicate
  constraints := collectConstraints predicate.conjuncts
  needed :=
    match projection with
    | .all => Needed.all
    | .columns ordinals =>
        .some (predicate.columns ++ ordinals ++ sort.map SortKey.column ++
          (List.range compute.length).map (fun i => table.columns.length + i))
  stats := stats
  ordered := !sort.isEmpty
  compute := compute

/-- There is always a path to consider. -/
theorem candidates_ne_nil
    (context : MatchContext) (hint : Option AccessHint) :
    candidates context hint ≠ [] := by
  rw [candidates.eq_def]
  dsimp only
  split
  · exact cons_ne_nil _ _
  · exact cons_ne_nil _ _
  · split
    · exact cons_ne_nil _ _
    · next found => exact found

/-- The columns that a filter fixes to one value. -/
def Constraints.pinned (constraints : Constraints) : List Ordinal :=
  (constraints.filter (fun entry => entry.2.equals.isSome)).map Prod.fst

section

variable
  (table : TableDef)
  (predicate : Expr)
  (order : ScanOrder)
  (projection : Projection)
  (stats : TableStats)
  (sort : List SortKey)
  (hint : Option AccessHint)
  (compute : List Scalar)

include table predicate order projection stats sort hint compute

/--
A plan reads nothing when a conjunct cannot be satisfied, and else what is left
of one of the paths that are considered, sorting where that is not in order.
-/
theorem planHinted_spec :
    (predicate.conjuncts.any unsatisfiable = true ∧
      (planHinted table predicate order projection stats sort hint
        compute).access = .nothing) ∨
    ∃ candidate ∈ candidates
        (matchContext table predicate projection stats sort compute) hint,
      (planHinted table predicate order projection stats sort hint
        compute).access = prunedAccess candidate.access ∧
      (planHinted table predicate order projection stats sort hint compute).sort =
          if !sort.isEmpty && !candidate.satisfies sort order
            (collectConstraints predicate.conjuncts).pinned then some sort
          else none := by
  rw [planHinted.eq_def]
  dsimp only
  split
  · next refuted => exact Or.inl ⟨refuted, rfl⟩
  · refine Or.inr ⟨_, ?_, rfl, rfl⟩
    split
    · next none => exact absurd none (candidates_ne_nil _ _)
    · next first rest considered =>
        have chosen := cheapest_mem stats
        exact considered ▸ chosen _ first rest

theorem access_planHinted :
    (predicate.conjuncts.any unsatisfiable = true ∧
      (planHinted table predicate order projection stats sort hint
        compute).access = .nothing) ∨
    ∃ candidate ∈ candidates
        (matchContext table predicate projection stats sort compute) hint,
      (planHinted table predicate order projection stats sort hint
        compute).access = prunedAccess candidate.access :=
  (planHinted_spec table predicate order projection stats sort hint
    compute).imp_right (fun ⟨candidate, considered, isAccess, _⟩ =>
      ⟨candidate, considered, isAccess⟩)

end

theorem satisfies_of_unsorted
    {sort : List SortKey} {order : ScanOrder} {pinned : List Ordinal}
    {candidate : Candidate}
    (unsorted : (if (!sort.isEmpty &&
        !candidate.satisfies sort order pinned) = true then some sort
      else none) = none) :
    sort = [] ∨ candidate.satisfies sort order pinned = true := by
  cases satisfied : candidate.satisfies sort order pinned with
  | true => exact Or.inr rfl
  | false =>
      refine Or.inl ?_
      cases sort with
      | nil => rfl
      | cons key rest =>
          rw [satisfied] at unsorted
          cases unsorted

theorem satisfies_planHinted
    {table : TableDef} {predicate : Expr} {order : ScanOrder}
    {projection : Projection} {stats : TableStats} {sort : List SortKey}
    {hint : Option AccessHint} {compute : List Scalar}
    (unsorted : (planHinted table predicate order projection stats sort hint
      compute).sort = none) :
    (planHinted table predicate order projection stats sort hint
      compute).access = .nothing ∨
    ∃ candidate ∈ candidates
        (matchContext table predicate projection stats sort compute) hint,
      (planHinted table predicate order projection stats sort hint
        compute).access = prunedAccess candidate.access ∧
      (sort = [] ∨ candidate.satisfies sort order
        (collectConstraints predicate.conjuncts).pinned = true) := by
  rcases planHinted_spec table predicate order projection stats sort hint
    compute with ⟨-, isNothing⟩ | ⟨candidate, considered, isAccess, isSort⟩
  · exact Or.inl isNothing
  · refine Or.inr ⟨candidate, considered, isAccess, ?_⟩
    exact satisfies_of_unsorted (isSort.symm.trans unsorted)

section

variable
  (table : TableDef)
  (predicate : Expr)
  (order : ScanOrder)
  (projection : Projection)
  (stats : TableStats)
  (sort : List SortKey)
  (hint : Option AccessHint)
  (compute : List Scalar)

include table predicate order projection stats sort hint compute

/-- A plan reads its own table and the entries of its own indexes. -/
theorem readsFrom_planHinted :
    (matchContext table predicate projection stats sort compute).ReadsFrom
      (planHinted table predicate order projection stats sort hint compute).access := by
  rcases access_planHinted table predicate order projection stats sort hint
    compute with ⟨-, isNothing⟩ | ⟨candidate, considered, isAccess⟩
  · rw [isNothing]
    trivial
  · rw [isAccess]
    exact (readsFrom_candidates candidate considered).pruned

@[simp] theorem outputColumns_planHinted :
    (planHinted table predicate order projection stats sort hint
      compute).outputColumns =
      planOutputColumns table predicate projection sort := by
  rw [planHinted.eq_def]
  dsimp only
  split <;> rfl

@[simp] theorem concealed_planHinted :
    (planHinted table predicate order projection stats sort hint
      compute).concealed = [] := by
  rw [planHinted.eq_def]
  dsimp only
  split <;> rfl

end

end SlateOrm
