import SlateOrm.PlanBounds

namespace SlateOrm

open List Keys Option MatchContext

/-!
# Plans visit rows once

A plan that walks several ranges of an index, or looks up several primary keys,
comes to a row that its filter admits once.  The ranges that a list of values
gives fix one column to different values, and a row has one of them.
-/

/-! ## Pinned columns -/

variable {constraints : Constraints} {constraint : ColumnConstraints}
  {ordinal : Ordinal} {keyColumns : List (Ordinal × Direction)} {row : Columns}
  {direction : Direction} {ranges : List KeyRange} {keys : List (List Value)}

theorem equalsFor_pinColumn_of_ne
    {ordinal other : Ordinal}
    (differs : other ≠ ordinal)
    (value : Value) :
    equalsFor (pinColumn constraints ordinal value) other =
      equalsFor constraints other := by
  induction constraints with
  | nil => rfl
  | cons first rest ih =>
      obtain ⟨column, constraint⟩ := first
      rw [pinColumn]
      split
      · next isPinned =>
          subst isPinned
          rw [equalsFor, equalsFor, constraintsFor, constraintsFor,
            find?_cons_of_neg (by simpa using Ne.symm differs),
            find?_cons_of_neg (by simpa using Ne.symm differs)]
      · by_cases isOther : column = other
        · rw [equalsFor, equalsFor, constraintsFor, constraintsFor,
            find?_cons_of_pos (by simpa using isOther),
            find?_cons_of_pos (by simpa using isOther)]
        · rw [equalsFor, equalsFor, constraintsFor, constraintsFor,
            find?_cons_of_neg (by simpa using isOther),
            find?_cons_of_neg (by simpa using isOther)]
          exact ih

theorem equalsFor_pinColumn
    (found : constraintsFor constraints ordinal = some constraint)
    (value : Value) :
    equalsFor (pinColumn constraints ordinal value) ordinal = some value := by
  induction constraints with
  | nil => cases found
  | cons first rest ih =>
      obtain ⟨column, other⟩ := first
      rw [pinColumn]
      split
      · next isPinned =>
          rw [equalsFor, constraintsFor, find?_cons_of_pos (by simpa using isPinned)]
          rfl
      · next notPinned =>
          rw [constraintsFor, find?_cons_of_neg (by simpa using notPinned)] at found
          rw [equalsFor, constraintsFor, find?_cons_of_neg (by simpa using notPinned)]
          exact ih found

/-- A column whose pinned value begins a row's key has that value. -/
theorem canonical_of_pinned_isPrefix
    {value : Value} {rest : Bytes} (met : constraints.Met row)
    (ordered : ∀ entry ∈ keyColumns, (row.valueOrNull entry.1).Ordered)
    (isFree : keyColumns.find? (fun entry => (equalsFor constraints entry.1).isNone) =
        some (ordinal, direction))
    (found : constraintsFor constraints ordinal = some constraint)
    (begins : (equalityPrefix (pinColumn constraints ordinal value)
      keyColumns).1 <+: encodeColumns row keyColumns ++ rest) :
    (row.valueOrNull ordinal).canonical = value.canonical := by
  induction keyColumns with
  | nil => cases isFree
  | cons first others ih =>
      obtain ⟨column, way⟩ := first
      rw [encodeColumns, flatMap_cons, ← encodeColumns, append_assoc] at begins
      cases isFixed : equalsFor constraints column with
      | none =>
          rw [find?_cons_of_pos (by simp [isFixed])] at isFree
          cases isFree
          rw [equalityPrefix, equalsFor_pinColumn found] at begins
          dsimp only at begins
          have here := (bound_isPrefix_iff [] _ direction _ value).mp
            ((prefix_append _ _).trans begins)
          rw [ordered _ (mem_cons_self ..)] at here
          refine (Value.cmp_eq_iff_canonical _ _).mp ?_
          cases direction with
          | asc => exact here
          | desc => exact Ordering.swap_eq_eq.mp here
      | some fixed =>
          rw [find?_cons_of_neg (by simp [isFixed])] at isFree
          have isOpen := find?_some isFree
          have differs : column ≠ ordinal := by
            rintro rfl
            simp [isFixed] at isOpen
          have equal := Constraints.canonical_of_equalsFor met isFixed
          rw [equalityPrefix, equalsFor_pinColumn_of_ne differs, isFixed] at begins
          dsimp only at begins
          rw [← encodeValue_canonical way fixed, ← equal,
            encodeValue_canonical, prefix_append_right_inj] at begins
          exact ih (fun entry member => ordered entry
            (mem_cons_of_mem _ member)) isFree begins

/-- Ranges are sorted by their starts. -/
theorem pairwise_startsNoLater
    (ranges : List KeyRange) :
    (ranges.insertionSort (fun first second =>
      startsNoLater first second = true)).Pairwise
        (fun first second => startsNoLater first second = true) := by
  have : Std.Total (fun first second : KeyRange =>
      startsNoLater first second = true) := by
    refine ⟨fun first second => ?_⟩
    rw [startsNoLater, startsNoLater]
    cases startBytes first with
    | none => exact Or.inl rfl
    | some x =>
        cases startBytes second with
        | none => exact Or.inr rfl
        | some y =>
            by_cases isLE : (compare x y).isLE = true
            · exact Or.inl isLE
            · refine Or.inr (Ordering.isLE_iff_ne_gt.mpr (fun isGT => ?_))
              rw [Std.OrientedCmp.lt_of_gt isGT] at isLE
              exact isLE rfl
  have : IsTrans KeyRange (fun first second =>
      startsNoLater first second = true) := by
    refine ⟨fun first second third before after => ?_⟩
    rw [startsNoLater] at before after ⊢
    cases isFirst : startBytes first with
    | none => rfl
    | some x =>
        cases isSecond : startBytes second with
        | none =>
            rw [isFirst, isSecond] at before
            cases before
        | some y =>
            rw [isFirst, isSecond] at before
            rw [isSecond] at after
            cases isThird : startBytes third with
            | none =>
                rw [isThird] at after
                cases after
            | some z =>
                rw [isThird] at after
                exact Std.TransCmp.isLE_trans before after
  exact pairwise_insertionSort _ ranges

/-- Ranges that fix a column to different values. -/
def PinnedApart (base : Bytes) (keyColumns : List (Ordinal × Direction))
    (constraints : Constraints) (ordinal : Ordinal)
    (range other : KeyRange) : Prop :=
  ∃ value value' : Value, value.canonical ≠ value'.canonical ∧
    range = matchKey base keyColumns (pinColumn constraints ordinal value) ∧
    other = matchKey base keyColumns (pinColumn constraints ordinal value')

/-- The ranges for a list's values come by their starts, each for one value. -/
theorem pinned_inRanges
    {base : Bytes}
    (made : inRanges base keyColumns constraints = some ranges) :
    ∃ ordinal direction constraint,
      keyColumns.find? (fun entry => (equalsFor constraints entry.1).isNone) =
        some (ordinal, direction) ∧
      constraintsFor constraints ordinal = some constraint ∧
      ranges.Pairwise (PinnedApart base keyColumns constraints ordinal) ∧
      ranges.Pairwise (fun range other =>
        startsNoLater range other = true) := by
  rw [inRanges] at made
  obtain ⟨⟨ordinal, direction⟩, isFree, made⟩ := bind_eq_some_iff.mp made
  obtain ⟨constraint, found, made⟩ := bind_eq_some_iff.mp made
  obtain ⟨values, _, made⟩ := bind_eq_some_iff.mp made
  split at made
  · cases made
  · dsimp only at made
    split at made
    · cases made
    · split at made
      · cases made
      · obtain rfl := some.inj made
        refine ⟨ordinal, direction, constraint, isFree, found, ?_,
          pairwise_startsNoLater _⟩
        refine (List.Perm.pairwise_iff (fun {range other} apart =>
          ?_) (perm_insertionSort ..)).mpr ?_
        · obtain ⟨value, value', differs, isRange, isOther⟩ := apart
          exact ⟨value', value, differs.symm, isOther, isRange⟩
        refine List.Pairwise.filter _ (pairwise_map.mpr ?_)
        refine List.Pairwise.filter _ ?_
        have sorted : StrictlySortedBy Value.cmp
            (dedup ((values.filter (fun value => !value.isNull)).insertionSort
              (fun first second => first.cmp second ≠ .gt))) :=
          strictlySortedBy_dedup (fun first second => by
              rw [Value.beq_iff_canonical, Value.cmp_eq_iff_canonical])
            (sortedBy_insertionSort _)
        refine sorted.imp (fun {value other} less =>
          ⟨value, other, fun equal => ?_, rfl, rfl⟩)
        rw [(Value.cmp_eq_iff_canonical value other).mpr equal] at less
        cases less

section

variable
  {base rest : Bytes}
  (met : constraints.Met row)
  (ordered : ∀ entry ∈ keyColumns, (row.valueOrNull entry.1).Ordered)

include met ordered

theorem canonical_of_contains_pinned
    (isFree : keyColumns.find? (fun entry => (equalsFor constraints entry.1).isNone) =
        some (ordinal, direction))
    (found : constraintsFor constraints ordinal = some constraint)
    {value : Value}
    (begins : base ++ (equalityPrefix (pinColumn constraints ordinal value)
      keyColumns).1 <+: base ++ encodeColumns row keyColumns ++ rest) :
    (row.valueOrNull ordinal).canonical = value.canonical := by
  rw [append_assoc, prefix_append_right_inj] at begins
  exact canonical_of_pinned_isPrefix met ordered isFree found begins

theorem pairwise_inRanges
    (made : inRanges base keyColumns constraints = some ranges) :
    ranges.Pairwise (fun range other => ¬(
      range.contains (base ++ encodeColumns row keyColumns ++ rest) = true ∧
        other.contains (base ++ encodeColumns row keyColumns ++ rest) = true)) := by
  obtain ⟨ordinal, direction, constraint, isFree, found, apart, -⟩ :=
    pinned_inRanges made
  refine apart.imp ?_
  rintro range other ⟨value, value', differs, rfl, rfl⟩ ⟨within, within'⟩
  exact differs ((canonical_of_contains_pinned met ordered isFree found
    (equalityPrefix_isPrefix within)).symm.trans (canonical_of_contains_pinned
    met ordered isFree found (equalityPrefix_isPrefix within')))

end

/-! ## Primary keys -/

/-- Lists of values are ordered as arrays of them are. -/
instance : Std.TransCmp Value.cmpList where
  eq_swap {first second} := by
    rw [← Value.cmp_array, ← Value.cmp_array]
    exact Std.OrientedCmp.eq_swap
  isLE_trans {first second third} isLE isLE' := by
    rw [← Value.cmp_array] at isLE isLE' ⊢
    exact Std.TransCmp.isLE_trans isLE isLE'

theorem cmpList_eq_iff_canonical
    (first second : List Value) :
    Value.cmpList first second = .eq ↔
      first.map Value.canonical = second.map Value.canonical := by
  rw [← Value.cmp_array, Value.cmp_eq_iff_canonical]
  simp [Value.canonical, Value.canonicalList_eq_map]

variable {table : TableDef}

theorem strictlySortedBy_pointGetSet
    (named : pointGetSet table constraints = some keys) :
    StrictlySortedBy Value.cmpList keys := by
  rw [pointGetSet] at named
  obtain ⟨⟨fixed, varying⟩, _, named⟩ := bind_eq_some_iff.mp named
  obtain ⟨values, _, named⟩ := bind_eq_some_iff.mp named
  split at named
  · cases named
  · obtain rfl := some.inj named
    exact strictlySortedBy_dedup (fun first second => by
        rw [Value.beq_list_iff_canonical, cmpList_eq_iff_canonical])
      (sortedBy_insertionSort _)

theorem pairwise_pointGetSet
    (named : pointGetSet table constraints = some keys) :
    keys.Pairwise (fun key other =>
      key.map Value.canonical ≠ other.map Value.canonical) := by
  refine (strictlySortedBy_pointGetSet named).imp (fun {key other} less equal => ?_)
  rw [(cmpList_eq_iff_canonical key other).mpr equal] at less
  cases less

/-! ## Paths that come to a row once -/

section

variable [Platform]

/-- Ranges of an index that hold one entry of a row at most, and once. -/
structure EntersOnce (table : TableDef) (row : Row) (id : IndexId)
    (ranges : List KeyRange) : Prop where
  entry : ∀ index ∈ table.indexes, index.id = id →
    ∀ entry ∈ admittedEntries table index row,
      ∀ entry' ∈ admittedEntries table index row,
        (∃ range ∈ ranges, range.contains entry.key = true) →
        (∃ range ∈ ranges, range.contains entry'.key = true) → entry.key = entry'.key
  range : ∀ index ∈ table.indexes, index.id = id →
    ∀ entry ∈ admittedEntries table index row, ranges.Pairwise (fun range other =>
        ¬(range.contains entry.key = true ∧ other.contains entry.key = true))

/-- The keys that are read include the row's once at most. -/
def Access.VisitsOnce (table : TableDef) (row : Row) : Access → Prop
  | .pointGets keys => keys.Pairwise (fun key other =>
      key.map Value.canonical ≠ other.map Value.canonical)
  | .indexScan id range _ => EntersOnce table row id [range]
  | .indexScans id ranges _ => EntersOnce table row id ranges
  | _ => True

theorem entersOnce_of_apart
    {row : Row} {id : IndexId} {ranges : List KeyRange}
    (apart : ¬EntryWithin table row id ranges) :
    EntersOnce table row id ranges := by
  constructor
  · intro index inIndexes sameId entry inEntries _ _ within
    exact absurd ⟨index, inIndexes, sameId, entry, inEntries, within⟩ apart
  · intro index inIndexes sameId entry inEntries
    refine pairwise_of_forall_mem_list (fun range inRanges _ _ both => ?_)
    exact apart ⟨index, inIndexes, sameId, entry, inEntries, range, inRanges, both.1⟩

namespace MatchContext

variable
  {context : MatchContext}
  {row : Row}
  (wellFormed : context.table.WellFormed)
  (admits : context.Admits row)

include wellFormed admits

variable {index : IndexDef} {candidate : Candidate}

section

variable
  (member : index ∈ context.table.indexes)

include member

/-- An entry that begins with a term is the row's entry for that term. -/
theorem entry_of_term
    (isText : index.text = true)
    {term : String} {entry : IndexEntry}
    (inEntries : entry ∈ admittedEntries context.table index row)
    (begins : indexPrefix context.table index none ++
      encodeColumns (extendRow row context.compute [] none).get
        (tenantColumns context.table) ++
      encodeValue .asc (.str term) <+: entry.key) :
    entry = indexEntry context.table index [.str term]
      (row.primaryKeyValues context.table) := by
  have ascending := ascending_of_isPrefix wellFormed admits member isText
    inEntries begins
  obtain ⟨-, values, isSet, rfl⟩ := mem_admittedEntries.mp inEntries
  obtain ⟨held, rfl⟩ := exists_term isText isSet
  rw [indexEntry_eq, ← indexPrefix_none context.table, entryBytes,
    key_of_ascending wellFormed admits member isText ascending] at begins
  simp only [append_assoc, prefix_append_right_inj] at begins
  have equal := (bound_isPrefix_iff [] _ .asc (.str held) (.str term)).mp begins
  have same : Value.str held = .str term :=
    eq_str_of_canonical ((Value.cmp_eq_iff_canonical _ _).mp equal)
  rw [same]

theorem ascending_of_within
    (isText : index.text = true)
    (matched : matchIndex context index = some candidate)
    {id : IndexId} {ranges : List KeyRange} {covering : Bool}
    (isRanges : candidate.access.entryRanges = some (id, ranges, covering))
    {entry : IndexEntry}
    (inEntries : entry ∈ admittedEntries context.table index row)
    {range : KeyRange}
    (inRanges : range ∈ ranges)
    (contained : range.contains entry.key = true) :
    ∀ column ∈ index.columns, column.direction = .asc := by
  rw [matchIndex] at matched
  split at matched
  · cases matched
  · obtain ⟨term, -, isAccess⟩ := access_of_matchTextIndex admits matched
    rw [isAccess] at isRanges
    cases isRanges
    rw [mem_singleton.mp inRanges, KeyRange.contains_ofPrefix] at contained
    exact ascending_of_isPrefix wellFormed admits member isText inEntries contained

theorem visitsOnce_matchTextIndex
    (isText : index.text = true)
    (matched : matchTextIndex context index = some candidate) :
    candidate.access.VisitsOnce context.table row := by
  obtain ⟨term, -, isAccess⟩ := access_of_matchTextIndex admits matched
  rw [isAccess]
  refine ⟨?_, fun _ _ _ _ _ => pairwise_singleton _ _⟩
  intro other inIndexes sameId entry inEntries entry' inEntries' within within'
  obtain rfl : other = index :=
    inj_on_of_nodup_map wellFormed.indexIds inIndexes member sameId
  have isEntry : ∀ found ∈ admittedEntries context.table other row,
      (∃ range ∈ [KeyRange.ofPrefix (indexPrefix context.table other none ++
          encodeColumns (extendRow row context.compute [] none).get
            (tenantColumns context.table) ++
          encodeValue .asc (.str term))], range.contains found.key = true) →
        found = indexEntry context.table other [.str term]
          (row.primaryKeyValues context.table) := by
    rintro found isFound ⟨range, isRange, contained⟩
    rw [mem_singleton.mp isRange, KeyRange.contains_ofPrefix] at contained
    exact entry_of_term wellFormed admits member isText isFound contained
  rw [isEntry entry inEntries within, isEntry entry' inEntries' within']

/-- The path over an index comes to a row once. -/
theorem visitsOnce_matchIndex
    {shown : Columns} (held : context.Held index row shown)
    (matched : matchIndex context index = some candidate) :
    candidate.access.VisitsOnce context.table row := by
  rw [matchIndex] at matched
  split at matched
  · cases matched
  · next isUsable =>
      rw [Bool.not_eq_true, Bool.not_eq_false'] at isUsable
      split at matched
      · next isText =>
          exact visitsOnce_matchTextIndex wellFormed admits member isText matched
      · next notText =>
          obtain ⟨keyColumns, isKey, matched⟩ := bind_eq_some_iff.mp matched
          -- The row has one entry, which begins with its key columns.
          have isEntry : ∀ entry ∈ admittedEntries context.table index row,
              entry = indexEntry context.table index
                (index.keyValues row) (row.primaryKeyValues context.table) := by
            intro entry inEntries
            obtain ⟨-, values, isSet, rfl⟩ := mem_admittedEntries.mp inEntries
            rw [IndexDef.keySets, if_pos (by simpa using notText)] at isSet
            rw [mem_singleton.mp isSet]
          have single : ∀ ranges : List KeyRange,
              (∀ rest, ranges.Pairwise (fun range other => ¬(
                range.contains (indexPrefix context.table index none ++
                  encodeColumns shown keyColumns ++ rest) = true ∧
                other.contains (indexPrefix context.table index none ++
                  encodeColumns shown keyColumns ++ rest) = true))) →
              EntersOnce context.table row index.id ranges := by
            intro ranges apart
            constructor
            · intro other inIndexes sameId entry inEntries entry' inEntries' _ _
              obtain rfl : other = index := inj_on_of_nodup_map
                wellFormed.indexIds inIndexes member sameId
              rw [isEntry entry inEntries, isEntry entry' inEntries']
            · intro other inIndexes sameId entry inEntries
              obtain rfl : other = index := inj_on_of_nodup_map
                wellFormed.indexIds inIndexes member sameId
              rw [isEntry entry inEntries, indexEntry_eq, ← indexPrefix_none
                context.table, entryBytes, held.slots keyColumns isKey, ← append_assoc]
              exact apart _
          dsimp only at matched
          split at matched
          · cases matched
            exact single _ (fun _ => pairwise_singleton _ _)
          · next ranges _ made =>
              cases matched
              exact single _ (fun rest => pairwise_inRanges held.met
                (held.ordered keyColumns isKey) made)
          · cases matched
            exact single _ (fun _ => pairwise_singleton _ _)

end

theorem visitsOnce_candidates
    {hint : Option AccessHint} :
    ∀ candidate ∈ candidates context hint, (∀ id ranges covering,
        candidate.access.entryRanges = some (id, ranges, covering) →
          EntryWithin context.table row id ranges →
            ∀ index ∈ context.table.indexes, index.id = id →
              ∃ shown, context.Held index row shown) →
        candidate.access.VisitsOnce context.table row := by
  refine forall_candidates ?_ ?_ ?_
  · intro _
    rw [matchPrimaryKey]
    split
    · split <;> trivial
    · trivial
  · intro candidate member _
    obtain ⟨keys, named, rfl⟩ := map_eq_some_iff.mp (mem_toList.mp member)
    exact pairwise_pointGetSet named
  · intro chosen inTable candidate member held
    obtain ⟨index, isChosen, matched⟩ := mem_filterMap.mp member
    obtain ⟨ranges, covering, isRanges⟩ := entryRanges_of_matchIndex matched
    by_cases within : EntryWithin context.table row index.id ranges
    · obtain ⟨shown, held⟩ := held _ _ _ isRanges within index (inTable isChosen) rfl
      exact visitsOnce_matchIndex wellFormed admits (inTable isChosen) held matched
    · have once := entersOnce_of_apart within
      cases access : candidate.access with
      | indexScan id range covering
      | indexScans id ranges covering =>
          rw [access] at isRanges
          cases isRanges
          exact once
      | _ =>
          rw [access] at isRanges
          cases isRanges

end MatchContext

theorem visitsOnce_planHinted
    {row : Row} {predicate : Expr} {compute : List Scalar}
    (wellFormed : table.WellFormed)
    (keyable : row.Keyable table)
    (admitted : predicate.admits (extendRow row compute [] none) = true)
    (order : ScanOrder) (projection : Projection) (stats : TableStats)
    (sort : List SortKey) (hint : Option AccessHint)
    (held : ∀ id ranges covering,
      (planHinted table predicate order projection stats sort hint
        compute).access.entryRanges = some (id, ranges, covering) →
        EntryWithin table row id ranges → ∀ index ∈ table.indexes, index.id = id →
            ∃ shown, (matchContext table predicate projection stats sort
              compute).Held index row shown) :
    (planHinted table predicate order projection stats sort hint
      compute).access.VisitsOnce table row := by
  have admits := admits_matchContext keyable admitted projection stats sort
  rcases access_planHinted table predicate order projection stats sort hint
    compute with ⟨-, isNothing⟩ | ⟨candidate, considered, isAccess⟩
  · rw [isNothing]
    trivial
  · rw [isAccess] at held ⊢
    rcases prunedAccess_cases candidate.access with
      isSame | isNothing
    · rw [isSame] at held ⊢
      exact visitsOnce_candidates wellFormed admits candidate considered held
    · rw [isNothing]
      trivial

end

end SlateOrm
