import SlateOrm.BatchedScan
import SlateOrm.CatalogStore
import SlateOrm.Migration
import SlateOrm.RecordWrites

namespace SlateOrm

open List Keys Overlay RecordState

/-!
# What plans are made of

A plan has a part for each table, which follows from what is recorded about the
table alone.  Its steps are about that table, and they build each index that
the table declares at most once.  A table whose migrated state is recorded has
nothing left to do.
-/

namespace MigrationPlan

@[simp] theorem steps_append
    (first second : MigrationPlan) :
    (first.append second).steps = first.steps ++ second.steps :=
  rfl

@[simp] theorem refusals_append
    (first second : MigrationPlan) :
    (first.append second).refusals = first.refusals ++ second.refusals :=
  rfl

/-- Plans appended in turn hold the steps and refusals of each. -/
theorem foldl_append
    (start : MigrationPlan) (plans : List MigrationPlan) :
    plans.foldl append start = {
      steps := start.steps ++ plans.flatMap steps
      refusals := start.refusals ++ plans.flatMap refusals } := by
  induction plans generalizing start with
  | nil => simp
  | cons plan rest ih =>
      rw [foldl_cons, ih]
      simp [append_assoc]

/-- A plan as it is applied by a caller, who may be the sole writer. -/
def forWriter (plan : MigrationPlan) (sole : Bool) : MigrationPlan :=
  if sole then plan.withSoleWriter else plan

@[simp] theorem steps_forWriter
    (plan : MigrationPlan) (sole : Bool) :
    (plan.forWriter sole).steps = plan.steps := by
  cases sole <;> rfl

theorem isBlocked_forWriter_of_subset
    {plan other : MigrationPlan}
    (fewer : plan.refusals ⊆ other.refusals)
    {sole : Bool}
    (free : (other.forWriter sole).isBlocked = false) :
    (plan.forWriter sole).isBlocked = false := by
  cases sole with
  | false =>
      simp only [isBlocked, forWriter, Bool.false_eq_true, if_false,
        Bool.not_eq_false', List.isEmpty_iff] at free ⊢
      rw [free] at fewer
      exact subset_nil.mp fewer
  | true =>
      simp only [isBlocked, forWriter, if_true, withSoleWriter,
        Bool.not_eq_false', List.isEmpty_iff, filter_eq_nil_iff] at free ⊢
      exact fun refusal member => free refusal (fewer member)

end MigrationPlan

/-- The index that a step builds. -/
def Step.builds : Step → Option IndexId
  | buildIndex _ index _ => some index
  | _ => none

namespace Migration

theorem steps_planOf
    (snapshot : Snapshot) (catalog : Catalog) :
    (planOf snapshot catalog).steps = catalog.tables.flatMap
        (fun table => (planTable snapshot table).steps) := by
  rw [planOf, MigrationPlan.foldl_append]
  exact flatMap_map ..

theorem refusals_planOf
    (snapshot : Snapshot) (catalog : Catalog) :
    (planOf snapshot catalog).refusals = catalog.tables.flatMap
        (fun table => (planTable snapshot table).refusals) := by
  rw [planOf, MigrationPlan.foldl_append]
  exact flatMap_map ..

variable {table : TableDef}

/-- The plan of a table depends only on the record stored for it. -/
theorem planTable_congr
    {first second : Snapshot}
    (same : first.get (metaKey table.id) = second.get (metaKey table.id)) :
    planTable first table = planTable second table := by
  rw [planTable, planTable, storedState, storedState, same]

/-- The plan of a catalog depends only on the records stored. -/
theorem planOf_congr
    {first second : Snapshot}
    (same : ∀ id, first.get (metaKey id) = second.get (metaKey id))
    (catalog : Catalog) :
    planOf first catalog = planOf second catalog := by
  rw [planOf, planOf]
  refine congrArg (foldl _ _) (map_congr_left (fun table _ => ?_))
  exact planTable_congr (same table.id)

theorem table_of_mem_planAdopted
    {state : TableState} {step : Step}
    (member : step ∈ (planAdopted table state).steps) :
    step.table = table.id := by
  simp only [planAdopted, mem_append, mem_map] at member
  rcases member with (((⟨index, _, rfl⟩ | ⟨id, _, rfl⟩) | noted) | recorded)
  · rfl
  · rfl
  · split at noted
    · rw [mem_singleton.mp noted]
      rfl
    · cases noted
  · split at recorded
    · rw [mem_singleton.mp recorded]
      rfl
    · cases recorded

/-- A recorded table is refused, adopted after changes, or adopted as it is. -/
theorem planRecorded_cases
    (table : TableDef) (state : TableState) :
    (∃ changes, planRecorded table state = {
        refusals := [.layoutChanged table.name state.fingerprint
          (fingerprint table) changes] }) ∨
      (∃ added retired, planRecorded table state = MigrationPlan.append
          { steps := [.widenSchema table.id table.name added retired] }
          (planAdopted table state)) ∨
      planRecorded table state = planAdopted table state := by
  rw [planRecorded]
  dsimp only
  split
  · split
    · next added retired _ => exact .inr (.inl ⟨added, retired, rfl⟩)
    · next changes _ => exact .inl ⟨changes, rfl⟩
    · exact .inl ⟨[], rfl⟩
  · exact .inr (.inr rfl)

/-- Each step in the plan of a table is about that table. -/
theorem table_of_mem_planTable
    {snapshot : Snapshot} {step : Step}
    (member : step ∈ (planTable snapshot table).steps) :
    step.table = table.id := by
  rw [planTable] at member
  split at member
  · rcases mem_cons.mp member with rfl | member
    · rfl
    · obtain ⟨index, _, rfl⟩ := mem_map.mp member
      rfl
  · cases member
  · next state _ =>
      rcases planRecorded_cases table state with
        ⟨changes, isPlan⟩ | ⟨added, retired, isPlan⟩ | isPlan
      · rw [isPlan] at member
        cases member
      · rw [isPlan] at member
        rcases mem_cons.mp member with rfl | member
        · rfl
        · exact table_of_mem_planAdopted member
      · rw [isPlan] at member
        exact table_of_mem_planAdopted member

theorem builds_map_buildStep
    (table : TableDef) (indexes : List IndexDef) :
    (indexes.map (buildStep table)).filterMap Step.builds =
      indexes.map IndexDef.id := by
  rw [filterMap_map]
  exact congrFun filterMap_eq_map' indexes

theorem builds_planAdopted
    (table : TableDef) (state : TableState) :
    (planAdopted table state).steps.filterMap Step.builds =
      (unbuilt table state).map IndexDef.id := by
  have dropped : ((undeclared table state).map
      (Step.dropIndex table.id)).filterMap Step.builds = [] := by
    rw [filterMap_map]
    exact filterMap_eq_nil_iff.mpr (fun _ _ => rfl)
  simp only [planAdopted, filterMap_append, dropped, builds_map_buildStep, append_nil]
  have noted : (if state.schemaVersion != table.schemaVersion then
      [Step.noteVersion table.id state.schemaVersion table.schemaVersion]
    else []).filterMap Step.builds = [] := by
    split <;> rfl
  have recorded : (if state.schema.isNone then
      [Step.recordSchema table.id table.name]
    else []).filterMap Step.builds = [] := by
    split <;> rfl
  rw [noted, recorded, append_nil, append_nil]

/-- A plan builds the indexes of its table, each at most once. -/
theorem builds_planTable
    (snapshot : Snapshot) (table : TableDef) :
    ((planTable snapshot table).steps.filterMap Step.builds).Sublist
      (table.indexes.map IndexDef.id) := by
  have adopted (state : TableState) :
      ((planAdopted table state).steps.filterMap Step.builds).Sublist
        (table.indexes.map IndexDef.id) := by
    rw [builds_planAdopted]
    exact filter_sublist.map _
  rw [planTable]
  split
  · have built : (planNew table).steps.filterMap Step.builds =
        table.indexes.map IndexDef.id :=
      builds_map_buildStep table table.indexes
    rw [built]
  · exact nil_sublist _
  · next state _ =>
      rcases planRecorded_cases table state with
        ⟨changes, isPlan⟩ | ⟨added, retired, isPlan⟩ | isPlan
      · rw [isPlan]
        exact nil_sublist _
      · rw [isPlan]
        exact adopted state
      · rw [isPlan]
        exact adopted state

variable {catalog : Catalog}

theorem nodup_builds_planOf
    (wellFormed : catalog.WellFormed)
    (distinct : (catalog.tables.map TableDef.id).Nodup) (snapshot : Snapshot) :
    ((planOf snapshot catalog).steps.filterMap Step.builds).Nodup := by
  rw [steps_planOf, filterMap_flatMap]
  rw [nodup_flatMap]
  constructor
  · intro table inCatalog
    exact (builds_planTable snapshot table).nodup
      (wellFormed.tables table inCatalog).indexIds
  · have different := pairwise_map.mp distinct
    refine different.imp_of_mem ?_
    intro first second isFirst isSecond otherId id inFirst inSecond
    obtain ⟨index, isIndex, rfl⟩ := mem_map.mp
      ((builds_planTable snapshot first).subset inFirst)
    obtain ⟨index', isIndex', sameId⟩ := mem_map.mp
      ((builds_planTable snapshot second).subset inSecond)
    have sameTable := wellFormed.indexIds first isFirst second isSecond index
      isIndex index' isIndex' sameId.symm
    rw [sameTable] at otherId
    exact otherId rfl

/-! ## A table that has been migrated -/

theorem addressable_of_wellFormed
    (wellFormed : table.WellFormed)
    (addressable : table.columns.length < 2 ^ 64) :
    (StoredSchema.of table).Addressable := by
  have inRange : ∀ ordinal ∈ table.primaryKey, ordinal < table.columns.length := by
    intro ordinal member
    obtain ⟨column, found, _⟩ := wellFormed.key ordinal member
    exact (List.getElem?_eq_some_iff.mp found).1
  have keyLength : table.primaryKey.length ≤ table.columns.length := by
    have fewer := wellFormed.keyDistinct.length_le_of_subset
      (fun ordinal member => mem_range.mpr (inRange ordinal member))
    rwa [length_range] at fewer
  constructor
  · rw [StoredSchema.of, length_map]
    exact addressable
  · exact Nat.lt_of_le_of_lt keyLength addressable
  · intro ordinal member
    exact Nat.lt_trans (inRange ordinal member) addressable
  · intro ordinal isTenant
    have isHead := wellFormed.tenant ordinal isTenant
    exact Nat.lt_trans (inRange ordinal (mem_of_head? isHead)) addressable

/-- A table whose migrated state is recorded has nothing left to do. -/
theorem planTable_of_migrated
    {snapshot : Snapshot}
    (wellFormed : table.WellFormed)
    (addressable : table.columns.length < 2 ^ 64)
    (recorded : snapshot.get (metaKey table.id) =
      some (encodeState (migratedState table))) :
    planTable snapshot table = {} := by
  have schemaAddressable : ∀ schema ∈ (migratedState table).schema,
      schema.Addressable := by
    rintro schema ⟨⟩
    exact addressable_of_wellFormed wellFormed addressable
  have isState : storedState snapshot table = some (.ok (migratedState table)) := by
    rw [storedState, recorded, Option.map_some,
      decodeState_encode table schemaAddressable]
  have nothingUnbuilt : unbuilt table (migratedState table) = [] := by
    rw [unbuilt, filter_eq_nil_iff]
    intro index member
    simp only [migratedState, Bool.not_eq_true', Bool.not_eq_false,
      contains_iff_mem, mem_map]
    exact ⟨index, member, rfl⟩
  have nothingUndeclared : undeclared table (migratedState table) = [] := by
    rw [undeclared, filter_eq_nil_iff]
    intro id member
    obtain ⟨index, isIndex, rfl⟩ := mem_map.mp member
    rw [TableDef.index, Option.isNone_iff_eq_none, find?_eq_none]
    intro absent
    exact absent index isIndex (beq_iff_eq.mpr rfl)
  have adopted : planAdopted table (migratedState table) = {} := by
    rw [planAdopted, nothingUnbuilt, nothingUndeclared]
    simp [migratedState]
  have sameFingerprint :
      ((migratedState table).fingerprint != fingerprint table) = false :=
    bne_self_eq_false _
  rw [planTable, isState]
  dsimp only
  rw [planRecorded, sameFingerprint]
  exact adopted

/-! ## What a plan records -/

/-- What is recorded about every table is the same. -/
def SameRecords (first second : Kv) : Prop :=
  ∀ id, first[Keys.metaKey id]? = second[Keys.metaKey id]?

theorem not_ofIndex_metaKey
    (table : TableId) (id : IndexId) :
    ¬OfIndex id (metaKey table) := by
  rintro ⟨bytes, same⟩
  rw [← append_nil (metaKey table)] at same
  exact absurd (header_append_inj same).1 (by decide)

/-- What a plan records when its steps are through. -/
def recordChanges (catalog : Catalog) (plan : MigrationPlan) : List Change :=
  (catalog.tables.filter (fun table =>
    plan.steps.any (fun step => step.touches table.id))).map
    (fun table => (Keys.metaKey table.id, some (encodeState (migratedState table))))

theorem plan_congr
    {first second : Kv} (same : SameRecords first second) (catalog : Catalog) :
    plan first catalog = plan second catalog := by
  refine planOf_congr (fun id => ?_) catalog
  rw [get_begin, get_begin]
  exact same id

theorem getElem?_recorded_of_touched
    (wellFormed : catalog.WellFormed)
    {plan : MigrationPlan}
    (inCatalog : table ∈ catalog.tables)
    (touched : plan.steps.any (fun step => step.touches table.id) = true)
    (store : Kv) :
    (carryOut store (recordChanges catalog plan))[ metaKey table.id]? =
      some (encodeState (migratedState table)) := by
  have isLast : lastWrite (metaKey table.id) (recordChanges catalog plan) =
        some (some (encodeState (migratedState table))) := by
    have member : (metaKey table.id, some (encodeState (migratedState table))) ∈
          recordChanges catalog plan :=
      mem_map.mpr ⟨table, mem_filter.mpr ⟨inCatalog, touched⟩, rfl⟩
    refine lastWrite_of_mem member ?_
    intro change isChange sameKey
    obtain ⟨other, isOther, rfl⟩ := mem_map.mp isChange
    have sameTable := wellFormed.tableIds other
      (mem_filter.mp isOther).1 table inCatalog
      (metaKey_inj sameKey)
    rw [sameTable]
  rw [getElem?_carryOut, isLast]
  rfl

theorem getElem?_recorded_of_untouched
    (catalog : Catalog) {plan : MigrationPlan}
    (untouched : plan.steps.any (fun step => step.touches table.id) = false)
    (store : Kv) :
    (carryOut store (recordChanges catalog plan))[ metaKey table.id]? =
      store[metaKey table.id]? := by
  refine getElem?_carryOut_of_absent store ?_
  intro change isChange sameKey
  obtain ⟨other, isOther, rfl⟩ := mem_map.mp isChange
  have touched := (mem_filter.mp isOther).2
  rw [metaKey_inj sameKey, untouched] at touched
  cases touched

/-- A migration that has been through has nothing left to do. -/
theorem planTable_of_recorded
    (wellFormed : catalog.WellFormed)
    (addressable : ∀ table ∈ catalog.tables, table.columns.length < 2 ^ 64)
    {store between : Kv} (same : SameRecords store between) (sole : Bool)
    (table : TableDef)
    (inCatalog : table ∈ catalog.tables) :
    let after := carryOut between
      (recordChanges catalog ((plan store catalog).forWriter sole))
    (planTable (begin after).transaction table).steps = [] ∧
      (planTable (begin after).transaction table).refusals ⊆
        (planTable (begin store).transaction table).refusals := by
  intro after
  cases touched : ((plan store catalog).forWriter sole).steps.any
      (fun step => step.touches table.id) with
  | true =>
      have recorded := getElem?_recorded_of_touched wellFormed inCatalog touched between
      rw [← get_begin] at recorded
      rw [planTable_of_migrated (wellFormed.tables table inCatalog)
        (addressable table inCatalog) recorded]
      exact ⟨rfl, nil_subset _⟩
  | false =>
      have recorded := getElem?_recorded_of_untouched catalog touched between
      rw [← same table.id, ← get_begin, ← get_begin] at recorded
      rw [planTable_congr recorded]
      refine ⟨?_, List.Subset.refl _⟩
      rw [eq_nil_iff_forall_not_mem]
      intro step member
      rw [any_eq_false] at touched
      have inPlan : step ∈ ((plan store catalog).forWriter sole).steps := by
        rw [MigrationPlan.steps_forWriter, plan, steps_planOf]
        exact mem_flatMap.mpr ⟨table, inCatalog, member⟩
      refine touched step inPlan ?_
      rw [Step.touches, table_of_mem_planTable member]
      exact beq_self_eq_true _

end Migration

end SlateOrm
