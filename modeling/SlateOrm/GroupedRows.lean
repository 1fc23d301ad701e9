import SlateOrm.AggregateValues
import SlateOrm.PathRows
import SlateOrm.SortedWalks

namespace SlateOrm

open List

/-!
# Groups of rows

The groups are the classes of the rows whose keys are equal, and each aggregate
of a group is that of its rows.  Neither depends on the order of the rows, as
long as no float is added up.
-/

/-! ## Accumulating side by side -/

section

variable {α β γ : Type}

theorem forall₂_of_zip
    {before : α → β → Prop} {step : α × β → γ → Prop} {after : α → γ → Prop}
    (combine : ∀ first second third, before first second →
      step (first, second) third → after first third)
    {firsts : List α} {seconds : List β} {thirds : List γ}
    (held : List.Forall₂ before firsts seconds)
    (stepped : List.Forall₂ step (firsts.zip seconds) thirds) :
    List.Forall₂ after firsts thirds := by
  induction held generalizing thirds with
  | nil =>
      rw [zip_nil_left, forall₂_nil_left_iff] at stepped
      subst stepped
      exact List.Forall₂.nil
  | cons holds _ ih =>
      rw [zip_cons_cons, forall₂_cons_left_iff] at stepped
      obtain ⟨third, others, isStep, areSteps, rfl⟩ := stepped
      exact List.Forall₂.cons (combine _ _ _ holds isStep) (ih areSteps)

theorem exists_forall₂_zip
    {before : α → β → Prop} (step : α × β → γ → Prop) {firsts : List α}
    {seconds : List β} (held : List.Forall₂ before firsts seconds)
    (steps : ∀ first ∈ firsts, ∀ second, before first second →
      ∃ third, step (first, second) third) :
    ∃ thirds, List.Forall₂ step (firsts.zip seconds) thirds := by
  induction held with
  | nil => exact ⟨[], List.Forall₂.nil⟩
  | cons holds _ ih =>
      obtain ⟨third, isStep⟩ := steps _ (mem_cons_self ..) _ holds
      obtain ⟨others, areSteps⟩ := ih
        (fun first member => steps first (mem_cons_of_mem _ member))
      exact ⟨third :: others, List.Forall₂.cons isStep areSteps⟩

end

theorem Aggregate.AddsNoFloat.subset
    {aggregate : Aggregate} {rows others : List Row}
    (noFloat : aggregate.AddsNoFloat rows)
    (within : others ⊆ rows) :
    aggregate.AddsNoFloat others := by
  have inputs : aggregate.inputs others ⊆ aggregate.inputs rows := by
    intro input isInput
    obtain ⟨row, isRow, reads⟩ := mem_filterMap.mp isInput
    exact mem_filterMap.mpr ⟨row, within isRow, reads⟩
  cases aggregate with
  | sum column | avg column => exact fun input isInput => noFloat input (inputs isInput)
  | _ => trivial

/-- Accumulators of some aggregates that hold what there is of the rows so far. -/
structure Accumulators.Of (aggregates : List Aggregate) (maxDistinct : Nat)
    (rows : List Row) (accumulators : Accumulators) : Prop where
  specs : accumulators.specs = aggregates
  limit : accumulators.maxDistinct = maxDistinct
  state : List.Forall₂ (fun aggregate accumulator =>
    aggregate.Accumulated rows accumulator) aggregates accumulators.state

namespace Accumulators

variable
  {aggregates : List Aggregate}
  {maxDistinct : Nat}
  {rows : List Row}
  {row : Row}
  {accumulators next : Accumulators}

theorem of_withLimits
    (aggregates : List Aggregate) (limits : ExecutionLimits) :
    Of aggregates limits.maxDistinct [] (withLimits aggregates limits) := by
  refine ⟨rfl, rfl, ?_⟩
  rw [withLimits, forall₂_map_right_iff, forall₂_same]
  exact fun aggregate _ => Aggregate.accumulated_nil

theorem push_eq_ok_iff :
    accumulators.push row = .ok next ↔ ∃ state, List.Forall₂ (fun entry later =>
          Accumulator.push accumulators.maxDistinct entry.1 row entry.2 = .ok later)
        (accumulators.specs.zip accumulators.state) state ∧
          next = { accumulators with state := state } := by
  simp only [← mapM_ok_iff]
  rw [push]
  cases (accumulators.specs.zip accumulators.state).mapM (fun entry =>
    entry.2.push accumulators.maxDistinct entry.1 row) with
  | error failure =>
      constructor
      · nofun
      · rintro ⟨_, ⟨⟩, _⟩
  | ok state =>
      constructor
      · rintro ⟨⟩
        exact ⟨state, rfl, rfl⟩
      · rintro ⟨_, ⟨⟩, rfl⟩
        rfl

section

variable
  (held : Of aggregates maxDistinct rows accumulators)

include held

theorem Of.push
    (noFloat : ∀ aggregate ∈ aggregates, aggregate.AddsNoFloat (rows ++ [row]))
    (pushed : accumulators.push row = .ok next) :
    Of aggregates maxDistinct (rows ++ [row]) next := by
  obtain ⟨specs, limit, held⟩ := held
  obtain ⟨state, stepped, rfl⟩ := push_eq_ok_iff.mp pushed
  refine ⟨specs, limit, ?_⟩
  have member : List.Forall₂ (fun aggregate accumulator =>
      aggregate ∈ aggregates ∧ aggregate.Accumulated rows accumulator)
        aggregates accumulators.state := by
    rw [forall₂_and_left]
    exact ⟨fun _ => id, held⟩
  rw [specs] at stepped
  exact forall₂_of_zip (fun aggregate accumulator later accumulated isPushed =>
    Aggregate.accumulated_push accumulated.2 (noFloat aggregate accumulated.1)
      isPushed) member stepped

theorem Of.exists_push
    (accepts : ∀ aggregate ∈ aggregates,
      aggregate.Accepts maxDistinct (rows ++ [row])) :
    ∃ next, accumulators.push row = .ok next := by
  obtain ⟨specs, limit, held⟩ := held
  obtain ⟨state, stepped⟩ := exists_forall₂_zip (fun entry later => Accumulator.push
    maxDistinct entry.1 row entry.2 = .ok later) held (fun aggregate member accumulator
    accumulated => Aggregate.exists_push accumulated (accepts aggregate member))
  refine ⟨_, push_eq_ok_iff.mpr ⟨state, ?_, rfl⟩⟩
  rw [specs, limit]
  exact stepped

theorem Of.accepts_push
    (noFloat : ∀ aggregate ∈ aggregates, aggregate.AddsNoFloat (rows ++ [row]))
    (accepts : ∀ aggregate ∈ aggregates, aggregate.Accepts maxDistinct rows)
    (pushed : accumulators.push row = .ok next) :
    ∀ aggregate ∈ aggregates, aggregate.Accepts maxDistinct (rows ++ [row]) := by
  obtain ⟨specs, limit, held⟩ := held
  obtain ⟨state, stepped, -⟩ := push_eq_ok_iff.mp pushed
  rw [specs, limit] at stepped
  have each : List.Forall₂ (fun aggregate _ => aggregate ∈ aggregates →
      aggregate.Accepts maxDistinct (rows ++ [row])) aggregates state :=
    forall₂_of_zip (fun aggregate accumulator later accumulated isPushed
      member => Aggregate.accepts_push accumulated (noFloat aggregate member)
        (accepts aggregate member) isPushed) held stepped
  intro aggregate member
  obtain ⟨place, inside, rfl⟩ := getElem_of_mem member
  exact (forall₂_iff_get.mp each).2 place inside
    ((forall₂_iff_get.mp each).1 ▸ inside) member

theorem Of.computes
    (fits : ∀ column, .countDistinct column ∈ aggregates →
      ∀ input ∈ (Aggregate.countDistinct column).inputs rows, input.fits = true) :
    List.Forall₂ (fun aggregate value => aggregate.Computes rows value)
      aggregates accumulators.finish := by
  obtain ⟨rfl, -, held⟩ := held
  have each : ∀ {specs : List Aggregate} {state : List Accumulator},
      specs ⊆ accumulators.specs →
      List.Forall₂ (fun aggregate accumulator =>
        aggregate.Accumulated rows accumulator) specs state →
      List.Forall₂ (fun aggregate value => aggregate.Computes rows value) specs
        ((specs.zip state).map (fun entry => entry.2.finish entry.1)) := by
    intro specs state within held
    induction held with
    | nil => exact List.Forall₂.nil
    | cons accumulated _ ih =>
        obtain ⟨member, others⟩ := cons_subset.mp within
        refine List.Forall₂.cons (Aggregate.computes_finish accumulated ?_) (ih others)
        rintro column rfl
        exact fits column member
  exact each (List.Subset.refl _) held

end

theorem Of.canonical_finish
    {rows' : List Row} {accumulators' : Accumulators} (same : rows.Perm rows')
    (held : Of aggregates maxDistinct rows accumulators)
    (held' : Of aggregates maxDistinct rows' accumulators') :
    accumulators.finish.map Value.canonical =
      accumulators'.finish.map Value.canonical := by
  obtain ⟨specs, -, held⟩ := held
  obtain ⟨specs', -, held'⟩ := held'
  rw [finish, finish, specs, specs']
  clear specs specs'
  generalize accumulators.state = state at held
  generalize accumulators'.state = state' at held'
  induction held generalizing state' with
  | nil => rfl
  | cons accumulated _ ih =>
      cases held' with
      | cons accumulated' held' =>
          simp only [zip_cons_cons, map_cons, cons.injEq]
          exact ⟨Aggregate.canonical_finish_perm same accumulated accumulated',
            ih _ held'⟩

end Accumulators

/-! ## Keys -/

namespace Grouping

variable
  {grouping : Grouping}
  {row row' : Row}

theorem encodedKey_eq
    (grouping : Grouping) (row : Row) :
    grouping.encodedKey row = encode (grouping.key row) := by
  rw [encodedKey, key, encode]
  induction grouping.group with
  | nil => rfl
  | cons ordinal rest ih =>
      rw [flatMap_cons, map_cons, encodeWith, ih]
      rfl

theorem encodedKey_eq_iff
    (fits : Value.fitsList (grouping.key row) = true)
    (fits' : Value.fitsList (grouping.key row') = true) :
    grouping.encodedKey row = grouping.encodedKey row' ↔
      (grouping.key row == grouping.key row') = true := by
  rw [encodedKey_eq, encodedKey_eq, encode, encode, ← compareWith_eq_iff [],
    ← compareWith_cutList [] fits fits', ← compare_encodeWith]
  exact Std.LawfulEqOrd.compare_eq_iff_eq.symm

/--
Rows whose keys and different values all fit in an encoding, and none of whose
floats is added up.
-/
structure Plain (grouping : Grouping) (rows : List Row) : Prop where
  keys : ∀ row ∈ rows, Value.fitsList (grouping.key row) = true
  distinct : ∀ column, .countDistinct column ∈ grouping.aggregates →
    ∀ row ∈ rows, ∀ value, row.get column = some value → value.fits = true
  exact : ∀ aggregate ∈ grouping.aggregates, aggregate.AddsNoFloat rows

theorem Plain.subset
    {rows others : List Row} (plain : grouping.Plain rows)
    (within : others ⊆ rows) :
    grouping.Plain others := by
  refine ⟨fun row member => plain.keys row (within member), fun column
    isDistinct row member => plain.distinct column isDistinct row
    (within member), fun aggregate member => ?_⟩
  exact (plain.exact aggregate member).subset within

theorem Plain.fits
    {rows : List Row} (plain : grouping.Plain rows) (column : Ordinal)
    (isDistinct : .countDistinct column ∈ grouping.aggregates) :
    ∀ input ∈ (Aggregate.countDistinct column).inputs rows, input.fits = true := by
  intro input isInput
  obtain ⟨row, isRow, reads⟩ := mem_filterMap.mp isInput
  obtain ⟨isValue, -⟩ := Option.filter_eq_some_iff.mp reads
  exact plain.distinct column isDistinct row isRow input isValue

end Grouping

/-! ## Classes -/

namespace Grouper

variable
  {grouping : Grouping}
  {limits : ExecutionLimits}
  {rows : List Row}

theorem accumulate_eq_ok_iff
    {group next : List Value × Accumulators} {row : Row} :
    accumulate group row = .ok next ↔
      group.2.push row = .ok next.2 ∧ next.1 = group.1 := by
  rw [accumulate]
  cases group.2.push row with
  | error failure =>
      constructor
      · nofun
      · rintro ⟨⟨⟩, _⟩
  | ok later =>
      constructor
      · rintro ⟨⟩
        exact ⟨rfl, rfl⟩
      · rintro ⟨isLater, isKey⟩
        cases isLater
        rw [← isKey]
        rfl

/-- A class is folded to its key and to what its rows accumulate to. -/
theorem of_foldlM
    (done : List Row) {group next : List Value × Accumulators}
    (noFloat : ∀ aggregate ∈ grouping.aggregates, aggregate.AddsNoFloat (done ++ rows))
    (held : Accumulators.Of grouping.aggregates limits.maxDistinct done group.2)
    (accepts : ∀ aggregate ∈ grouping.aggregates,
      aggregate.Accepts limits.maxDistinct done)
    (folded : rows.foldlM accumulate group = .ok next) :
    next.1 = group.1 ∧
      Accumulators.Of grouping.aggregates limits.maxDistinct (done ++ rows) next.2 ∧
      ∀ aggregate ∈ grouping.aggregates,
        aggregate.Accepts limits.maxDistinct (done ++ rows) := by
  induction rows generalizing done group with
  | nil =>
      cases folded
      rw [append_nil]
      exact ⟨rfl, held, accepts⟩
  | cons row rest ih =>
      obtain ⟨between, stepped, folded⟩ := foldlM_cons_ok.mp folded
      obtain ⟨pushed, sameKey⟩ := accumulate_eq_ok_iff.mp stepped
      have isSplit : done ++ row :: rest = (done ++ [row]) ++ rest := by
        rw [append_assoc, singleton_append]
      have first : ∀ aggregate ∈ grouping.aggregates,
          aggregate.AddsNoFloat (done ++ [row]) := fun aggregate member =>
        (noFloat aggregate member).subset (isSplit ▸ subset_append_left _ _)
      rw [isSplit] at noFloat ⊢
      obtain ⟨sameKey', held', accepts'⟩ := ih (done ++ [row]) noFloat
        (held.push first pushed) (held.accepts_push first accepts pushed) folded
      exact ⟨sameKey'.trans sameKey, held', accepts'⟩

theorem exists_foldlM
    (done : List Row) {group : List Value × Accumulators}
    (noFloat : ∀ aggregate ∈ grouping.aggregates, aggregate.AddsNoFloat (done ++ rows))
    (held : Accumulators.Of grouping.aggregates limits.maxDistinct done group.2)
    (accepts : ∀ aggregate ∈ grouping.aggregates,
      aggregate.Accepts limits.maxDistinct (done ++ rows)) :
    ∃ next, rows.foldlM accumulate group = .ok next := by
  induction rows generalizing done group with
  | nil => exact ⟨group, rfl⟩
  | cons row rest ih =>
      have isSplit : done ++ row :: rest = (done ++ [row]) ++ rest := by
        rw [append_assoc, singleton_append]
      rw [isSplit] at noFloat accepts
      obtain ⟨accumulators, pushed⟩ := held.exists_push (fun aggregate member =>
        Aggregate.accepts_of_append (accepts aggregate member))
      have later := held.push (fun aggregate member =>
        (noFloat aggregate member).subset (subset_append_left _ _)) pushed
      obtain ⟨next, folded⟩ := ih (done ++ [row]) noFloat
        (show Accumulators.Of _ _ _ (group.1, accumulators).2 from later)
        accepts
      exact ⟨next, foldlM_cons_ok.mpr ⟨(group.1, accumulators),
        accumulate_eq_ok_iff.mpr ⟨pushed, rfl⟩, folded⟩⟩

theorem accepts_nil
    (aggregate : Aggregate) (maxDistinct : Nat) :
    aggregate.Accepts maxDistinct [] := by
  cases aggregate with
  | sum column | avg column => exact Or.inl nofun
  | countDistinct column => exact Nat.zero_le _
  | _ => trivial

theorem of_foldsTo
    {group : List Value × Accumulators}
    (noFloat : ∀ aggregate ∈ grouping.aggregates, aggregate.AddsNoFloat rows)
    (folds : KeyedFolds.FoldsTo (start grouping limits) accumulate rows group) :
    (∃ row ∈ rows, group.1 = grouping.key row) ∧
      Accumulators.Of grouping.aggregates limits.maxDistinct rows group.2 ∧
      ∀ aggregate ∈ grouping.aggregates, aggregate.Accepts limits.maxDistinct rows := by
  cases rows with
  | nil => exact folds.elim
  | cons first rest =>
      obtain ⟨isKey, held, accepts⟩ := of_foldlM [] noFloat (Accumulators.of_withLimits
        _ limits) (fun aggregate _ => accepts_nil aggregate _) folds
      exact ⟨⟨first, mem_cons_self .., isKey⟩, held, accepts⟩

theorem exists_foldsTo_iff
    (noFloat : ∀ aggregate ∈ grouping.aggregates, aggregate.AddsNoFloat rows) :
    (∃ group, KeyedFolds.FoldsTo (start grouping limits) accumulate rows group) ↔
      rows ≠ [] ∧ ∀ aggregate ∈ grouping.aggregates,
        aggregate.Accepts limits.maxDistinct rows := by
  constructor
  · rintro ⟨group, folds⟩
    obtain ⟨⟨row, member, -⟩, -, accepts⟩ := of_foldsTo noFloat folds
    exact ⟨ne_nil_of_mem member, accepts⟩
  · rintro ⟨some_, accepts⟩
    cases rows with
    | nil => exact absurd rfl some_
    | cons first rest =>
        exact exists_foldlM [] noFloat (Accumulators.of_withLimits _ limits) accepts

end Grouper

/-! ## Groups -/

/-- Groups whose keys and results are equal. -/
def Group.Same (first second : Group) : Prop :=
  (first.key == second.key) = true ∧ (first.values == second.values) = true

/-- Groupings that both refuse their rows, or have the same groups. -/
def SameGroups : Except KernelError (List Group) →
    Except KernelError (List Group) → Prop
  | .ok groups, .ok groups' => List.Forall₂ Group.Same groups groups'
  | .error _, .error _ => True
  | _, _ => False

/-- The rows of a group. -/
def Grouping.rowsOf (grouping : Grouping) (rows : List Row) (key : List Value) :
    List Row :=
  rows.filter (fun row => grouping.key row == key)

/--
The groups are the classes of rows whose keys are equal, and each aggregate of a
group is that of its rows.
-/
structure Grouping.Partitions (grouping : Grouping) (rows : List Row)
    (groups : List Group) : Prop where
  apart : groups.Pairwise (fun group other => (group.key == other.key) = false)
  inhabited : ∀ group ∈ groups, ∃ row ∈ rows, group.key = grouping.key row
  complete : ∀ row ∈ rows, ∃ group ∈ groups, (grouping.key row == group.key) = true
  computed : ∀ group ∈ groups, List.Forall₂ (fun aggregate value =>
    aggregate.Computes (grouping.rowsOf rows group.key) value)
      grouping.aggregates group.values

namespace Grouper

variable
  {grouping : Grouping}
  {limits : ExecutionLimits}
  {rows rows' : List Row}

/-- The rows of one encoded key. -/
abbrev classOf (grouping : Grouping) (rows : List Row) (encoded : Bytes) : List Row :=
  KeyedFolds.classOf grouping.encodedKey rows encoded

theorem classOf_subset
    (encoded : Bytes) :
    classOf grouping rows encoded ⊆ rows :=
  filter_subset_self _

section

variable
  (plain : grouping.Plain rows)

include plain

theorem classOf_eq_rowsOf
    {row : Row}
    (member : row ∈ rows) :
    classOf grouping rows (grouping.encodedKey row) =
      grouping.rowsOf rows (grouping.key row) := by
  refine filter_congr (fun other isOther => ?_)
  rw [Bool.eq_iff_iff, decide_eq_true_iff]
  exact Grouping.encodedKey_eq_iff (plain.keys other isOther) (plain.keys row member)

/-- The groups that plain rows were folded into are their classes. -/
theorem partitions_ordered
    {groups : Groups}
    (folded : rows.foldlM (push grouping limits) [] = .ok groups) :
    grouping.Partitions rows (ordered groups) := by
  have partitions := KeyedFolds.partitions_nil.append_items folded
  rw [nil_append] at partitions
  have sortedPerm : (KeyedFolds.sorted compare groups).Perm groups := mergeSort_perm ..
  -- Each entry is the fold of the rows of its key, which it has from one.
  have ofEntry : ∀ entry ∈ groups, ∃ row ∈ rows,
      entry.1 = grouping.encodedKey row ∧ entry.2.1 = grouping.key row ∧
        Accumulators.Of grouping.aggregates limits.maxDistinct
          (grouping.rowsOf rows (grouping.key row)) entry.2.2 := by
    intro entry member
    have folds := partitions.folds entry.1 entry.2 member
    obtain ⟨⟨row, inClass, isKey⟩, held, -⟩ := of_foldsTo (fun aggregate isAggregate =>
      (plain.exact aggregate isAggregate).subset (classOf_subset entry.1)) folds
    obtain ⟨isRow, isEncoded⟩ := mem_filter.mp inClass
    have sameEncoded : grouping.encodedKey row = entry.1 := of_decide_eq_true isEncoded
    refine ⟨row, isRow, sameEncoded.symm, isKey, ?_⟩
    rw [← classOf_eq_rowsOf plain isRow, sameEncoded]
    exact held
  have ofGroup : ∀ group ∈ ordered groups, ∃ entry ∈ groups,
      group = ⟨entry.2.1, entry.2.2.finish⟩ := by
    intro group member
    obtain ⟨entry, isEntry, rfl⟩ := mem_map.mp member
    exact ⟨entry, sortedPerm.subset isEntry, rfl⟩
  refine ⟨?_, ?_, ?_, ?_⟩
  · rw [ordered, pairwise_map]
    have distinct : (KeyedFolds.sorted compare groups).Pairwise
        (fun entry other => entry.1 ≠ other.1) :=
      pairwise_map.mp ((sortedPerm.map Prod.fst).symm.nodup partitions.nodup)
    refine distinct.imp_of_mem (fun {entry other} isEntry isOther differ => ?_)
    obtain ⟨row, isRow, isEncoded, isKey, -⟩ :=
      ofEntry entry (sortedPerm.subset isEntry)
    obtain ⟨row', isRow', isEncoded', isKey', -⟩ :=
      ofEntry other (sortedPerm.subset isOther)
    rw [← Bool.not_eq_true, isKey, isKey', ← Grouping.encodedKey_eq_iff
      (plain.keys row isRow) (plain.keys row' isRow'), ← isEncoded, ← isEncoded']
    exact differ
  · intro group member
    obtain ⟨entry, isEntry, rfl⟩ := ofGroup group member
    obtain ⟨row, isRow, -, isKey, -⟩ := ofEntry entry isEntry
    exact ⟨row, isRow, isKey⟩
  · intro row member
    obtain ⟨entry, isEntry, isEncoded⟩ := mem_map.mp
      ((partitions.keys (grouping.encodedKey row)).mpr (mem_map_of_mem member))
    obtain ⟨row', isRow', isEncoded', isKey', -⟩ := ofEntry entry isEntry
    refine ⟨⟨entry.2.1, entry.2.2.finish⟩, mem_map_of_mem
      (sortedPerm.symm.subset isEntry), ?_⟩
    rw [isKey', ← Grouping.encodedKey_eq_iff (plain.keys row member)
      (plain.keys row' isRow'), ← isEncoded, isEncoded']
  · intro group member
    obtain ⟨entry, isEntry, rfl⟩ := ofGroup group member
    obtain ⟨row, isRow, -, isKey, held⟩ := ofEntry entry isEntry
    rw [isKey]
    exact held.computes (plain.subset (filter_subset_self _)).fits

theorem exists_folded_perm
    (same : rows.Perm rows') :
    (∃ groups, rows.foldlM (push grouping limits) [] = .ok groups) ↔
      ∃ groups, rows'.foldlM (push grouping limits) [] = .ok groups := by
  refine KeyedFolds.exists_foldlM_perm same (fun encoded => ?_)
  have sameClass := KeyedFolds.classOf_perm grouping.encodedKey same encoded
  have noFloat : ∀ aggregate ∈ grouping.aggregates,
      aggregate.AddsNoFloat (classOf grouping rows encoded) :=
    fun aggregate member =>
      (plain.exact aggregate member).subset (classOf_subset encoded)
  rw [exists_foldsTo_iff noFloat, exists_foldsTo_iff (fun aggregate member =>
    (noFloat aggregate member).subset sameClass.symm.subset)]
  refine and_congr (not_congr ?_) (forall₂_congr (fun aggregate _ =>
    ⟨Aggregate.accepts_perm sameClass, Aggregate.accepts_perm sameClass.symm⟩))
  constructor
  · intro none_
    exact nil_perm.mp (none_ ▸ sameClass)
  · intro none_
    exact perm_nil.mp (none_ ▸ sameClass)

/-- Plain rows in another order have equal groups in one order. -/
theorem same_ordered
    (same : rows.Perm rows') {groups groups' : Groups}
    (folded : rows.foldlM (push grouping limits) [] = .ok groups)
    (folded' : rows'.foldlM (push grouping limits) [] = .ok groups') :
    List.Forall₂ Group.Same (ordered groups) (ordered groups') := by
  have plain' := plain.subset same.symm.subset
  have alike : ∀ encoded (group group' : List Value × Accumulators),
      KeyedFolds.FoldsTo (start grouping limits) accumulate
          (classOf grouping rows encoded) group →
        KeyedFolds.FoldsTo (start grouping limits) accumulate
            (classOf grouping rows' encoded) group' →
          (group.1 == group'.1) = true ∧
            (group.2.finish == group'.2.finish) = true := by
    intro encoded group group' folds folds'
    have sameClass := KeyedFolds.classOf_perm grouping.encodedKey same encoded
    obtain ⟨⟨row, inClass, isKey⟩, held, -⟩ := of_foldsTo (fun aggregate member =>
        (plain.exact aggregate member).subset (classOf_subset encoded)) folds
    obtain ⟨⟨row', inClass', isKey'⟩, held', -⟩ := of_foldsTo (fun aggregate member =>
      (plain'.exact aggregate member).subset (classOf_subset encoded)) folds'
    obtain ⟨isRow, isEncoded⟩ := mem_filter.mp inClass
    obtain ⟨isRow', isEncoded'⟩ := mem_filter.mp inClass'
    constructor
    · rw [isKey, isKey', ← Grouping.encodedKey_eq_iff (plain.keys row isRow)
        (plain'.keys row' isRow')]
      exact (of_decide_eq_true isEncoded).trans (of_decide_eq_true isEncoded').symm
    · exact (Value.beq_list_iff_canonical _ _).mpr
        (held.canonical_finish sameClass held')
  rw [ordered, ordered, forall₂_map_left_iff, forall₂_map_right_iff]
  exact (KeyedFolds.forall₂_sorted compare same alike folded folded').imp
    (fun _ _ both => both.2)

theorem exists_folded_iff :
    (∃ groups, rows.foldlM (push grouping limits) [] = .ok groups) ↔
      (rows.map grouping.encodedKey).toFinset.card ≤ limits.maxGroups ∧
        ∀ row ∈ rows, ∀ aggregate ∈ grouping.aggregates,
          aggregate.Accepts limits.maxDistinct
            (grouping.rowsOf rows (grouping.key row)) := by
  refine KeyedFolds.exists_foldlM_iff.trans
    (and_congr_right (fun _ => forall₂_congr (fun row member => ?_)))
  have inClass : row ∈ classOf grouping rows (grouping.encodedKey row) :=
    mem_filter.mpr ⟨member, decide_eq_true rfl⟩
  have folds := @exists_foldsTo_iff grouping limits
    (classOf grouping rows (grouping.encodedKey row))
    (fun aggregate isAggregate =>
      (plain.exact aggregate isAggregate).subset (classOf_subset _))
  rw [← classOf_eq_rowsOf plain member]
  exact folds.trans (and_iff_right (ne_nil_of_mem inClass))

end

end Grouper

/-! ## What is left of the groups -/

/-- A group in the spelling of its values. -/
def Group.canonical (group : Group) : Group where
  key := group.key.map Value.canonical
  values := group.values.map Value.canonical

theorem Group.same_iff
    {first second : Group} :
    first.Same second ↔ first.canonical = second.canonical := by
  rw [Group.Same, Value.beq_list_iff_canonical, Value.beq_list_iff_canonical,
    canonical, canonical, Group.mk.injEq]

theorem Group.asRow_canonical
    (group : Group) :
    group.canonical.asRow = ⟨group.asRow.canonical⟩ := by
  rw [asRow, canonical, asRow, Row.canonical, map_append]

theorem map_canonical_eq_iff
    {groups groups' : List Group} :
    groups.map Group.canonical = groups'.map Group.canonical ↔
      List.Forall₂ Group.Same groups groups' := by
  simp only [← forall₂_eq_eq_eq, forall₂_map_left_iff,
    forall₂_map_right_iff, ← Group.same_iff]

section

variable [Platform]

theorem Grouper.map_canonical_arrange
    (grouping : Grouping) (groups : List Group) :
    (arrange grouping groups).map Group.canonical =
      arrange grouping (groups.map Group.canonical) := by
  have filtered : (groups.filter (fun group =>
      grouping.having.admits group.asRow)).map Group.canonical =
        (groups.map Group.canonical).filter (fun group =>
          grouping.having.admits group.asRow) := by
    rw [filter_map]
    refine congrArg _ (filter_congr (fun group _ => ?_))
    rw [Function.comp_apply, Group.asRow_canonical]
    exact grouping.having.admits_of_same group.asRow.same_canonical
  have sorted (some_ : List Group) : (some_.mergeSort (fun first second =>
        compareRows first.asRow second.asRow grouping.sort ≠ .gt)).map Group.canonical =
        (some_.map Group.canonical).mergeSort (fun first second =>
          compareRows first.asRow second.asRow grouping.sort ≠ .gt) := by
    refine map_mergeSort (fun first _ second _ => ?_)
    rw [Group.asRow_canonical, Group.asRow_canonical, compareRows_canonical]
  simp only [arrange]
  rw [← filtered, ← sorted]
  cases grouping.sort.isEmpty with
  | true | false =>
      cases grouping.limit with
      | none | some limit => simp [map_drop, map_take]

variable
  {grouping : Grouping}
  {rows : List Row}

/--
The groups of plain rows are the classes of the rows whose keys are equal, and
each aggregate of a group is that of its rows.  Rows are refused when there are
too many keys or when an aggregate refuses those of a group.  In another order
they are refused as well, or have equal groups.
-/
theorem Grouper.run_exact
    (plain : grouping.Plain rows) (limits : ExecutionLimits) :
    (∀ groups, rows.foldlM (push grouping limits) [] = .ok groups →
      grouping.Partitions rows (ordered groups)) ∧
    ((∃ groups, run grouping limits rows = .ok groups) ↔
      (rows.map grouping.encodedKey).toFinset.card ≤ limits.maxGroups ∧
        ∀ row ∈ rows, ∀ aggregate ∈ grouping.aggregates,
          aggregate.Accepts limits.maxDistinct
            (grouping.rowsOf rows (grouping.key row))) ∧
    ∀ rows', rows.Perm rows' →
      SameGroups (run grouping limits rows) (run grouping limits rows') := by
  have isRun (some_ : List Row) : run grouping limits some_ =
      (some_.foldlM (push grouping limits) []).map (finish grouping) := by
    rw [run]
    cases some_.foldlM (push grouping limits) [] with
    | error failure | ok groups => rfl
  refine ⟨fun _ => partitions_ordered plain, ?_, fun rows' same => ?_⟩
  · rw [← exists_folded_iff plain, isRun]
    cases rows.foldlM (push grouping limits) [] with
    | error failure => exact ⟨nofun, nofun⟩
    | ok groups => exact ⟨fun _ => ⟨groups, rfl⟩, fun _ => ⟨_, rfl⟩⟩
  · have both := @exists_folded_perm grouping limits rows rows' plain same
    rw [isRun, isRun]
    cases isFolded : rows.foldlM (push grouping limits) [] with
    | error failure =>
        cases isFolded' : rows'.foldlM (push grouping limits) [] with
        | error failure' => trivial
        | ok groups' =>
            rw [isFolded, isFolded'] at both
            exact nomatch both.mpr ⟨groups', rfl⟩
    | ok groups =>
        cases isFolded' : rows'.foldlM (push grouping limits) [] with
        | error failure' =>
            rw [isFolded, isFolded'] at both
            exact nomatch both.mp ⟨groups, rfl⟩
        | ok groups' =>
            rw [Except.map, Except.map, SameGroups, ← map_canonical_eq_iff,
              finish, finish, map_canonical_arrange, map_canonical_arrange,
              map_canonical_eq_iff.mpr (same_ordered plain same isFolded isFolded')]

end

/-- The points of each player: how many there are, and their sum. -/
def pointsByPlayer : Grouping where
  group := [0]
  aggregates := [.countDistinct 1, .sum 1]

/-- Points of two players, one of which are counted and subtracted. -/
def pointsOfPlayers : List Row :=
  [⟨[.u64 7, .i64 5]⟩, ⟨[.u64 8, .decimal 250]⟩, ⟨[.u64 7, .u64 3]⟩,
    ⟨[.u64 7, .i64 (-9)]⟩]

theorem plain_pointsOfPlayers :
    pointsByPlayer.Plain pointsOfPlayers := by
  refine ⟨by decide, ?_, ?_⟩
  · intro column isDistinct row member value isValue
    obtain rfl : column = 1 := by
      simpa [pointsByPlayer] using isDistinct
    revert isValue
    rw [pointsOfPlayers] at member
    simp only [mem_cons, not_mem_nil, or_false] at member
    rcases member with rfl | rfl | rfl | rfl <;>
      · rintro ⟨⟩
        rfl
  · intro aggregate member
    rw [pointsByPlayer] at member
    simp only [mem_cons, not_mem_nil, or_false] at member
    rcases member with rfl | rfl
    · trivial
    · intro input isInput number
      rintro rfl
      simp [Aggregate.inputs, Aggregate.input, Aggregate.column, Row.get,
        pointsOfPlayers, Value.isNull] at isInput

/-- The groups of players are those of every order of their points. -/
theorem run_exact_pointsOfPlayers :
    (∀ groups, pointsOfPlayers.foldlM (Grouper.push pointsByPlayer {}) [] = .ok groups →
      pointsByPlayer.Partitions pointsOfPlayers (Grouper.ordered groups)) ∧
    ((∃ groups, @Grouper.run pointsByPlayer {} asciiPlatform pointsOfPlayers =
        .ok groups) ↔
      (pointsOfPlayers.map pointsByPlayer.encodedKey).toFinset.card ≤ 1000000 ∧
        ∀ row ∈ pointsOfPlayers, ∀ aggregate ∈ pointsByPlayer.aggregates,
          aggregate.Accepts 1000000
            (pointsByPlayer.rowsOf pointsOfPlayers (pointsByPlayer.key row))) ∧
    ∀ rows', pointsOfPlayers.Perm rows' → SameGroups
        (@Grouper.run pointsByPlayer {} asciiPlatform pointsOfPlayers)
        (@Grouper.run pointsByPlayer {} asciiPlatform rows') :=
  @Grouper.run_exact asciiPlatform pointsByPlayer pointsOfPlayers
    plain_pointsOfPlayers {}

/-- The sums of a group are the exact sums of what its rows hold. -/
def Grouping.SumsExactly (grouping : Grouping) (rows : List Row)
    (group : Group) : Prop :=
  List.Forall₂ (fun aggregate value => ∀ column, aggregate = .sum column →
    aggregate.inputs rows ≠ [] → value.units = some (sumOf (aggregate.inputs rows)))
    grouping.aggregates group.values

theorem Grouper.ordered_singleton
    (entry : Bytes × List Value × Accumulators) :
    ordered [entry] = [⟨entry.2.1, entry.2.2.finish⟩] := by
  rw [ordered, KeyedFolds.sorted, mergeSort_singleton, map_singleton]

/-- A sum of integers that leaves 64 bits is neither exact nor refused. -/
theorem not_sumsExactly :
    ¬ ∀ (grouping : Grouping) (limits : ExecutionLimits) (rows : List Row)
        (groups : Grouper.Groups),
      grouping.Plain rows → rows.foldlM (Grouper.push grouping limits) [] = .ok groups →
          ∀ group ∈ Grouper.ordered groups,
            grouping.SumsExactly (grouping.rowsOf rows group.key) group := by
  intro exact
  -- The sum is not what an integer can hold, and has become a float.
  have sums := exact { group := [], aggregates := [.sum 0] } {}
    [⟨[.i64 Int64.maxValue]⟩, ⟨[.i64 2]⟩]
    [([], [],
      { specs := [.sum 0]
        state := [.total { integer := 2 ^ 63 + 1, count := 2 }]
        maxDistinct := 1000000 })]
    ⟨by decide, nofun, ?_⟩ rfl
  · rw [Grouper.ordered_singleton, forall_mem_singleton] at sums
    cases sums with
    | cons isExact _ => exact nomatch isExact 0 rfl (by decide)
  · intro aggregate member
    obtain rfl := mem_singleton.mp member
    intro input isInput number
    rintro rfl
    simp [Aggregate.inputs, Aggregate.input, Aggregate.column, Row.get,
      Value.isNull] at isInput

end SlateOrm
