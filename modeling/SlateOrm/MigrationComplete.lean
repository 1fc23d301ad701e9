import SlateOrm.MigrationRepeat

namespace SlateOrm

open List Keys Option Overlay Migrating RecordState

/-!
# What an applied plan leaves of each index

The ids of indexes are shared by all tables, and the steps of a plan come table
by table.  A drop that one table's record asks for may thus come after another
table's build of the same id, and a build may start from the entries of a table
that has left the catalog.  What the last step on an id does, and what was there
before the first, decide whether an index is complete in the end.
-/

namespace Migration

/-- Some step drops an index. -/
def DroppedIn (id : IndexId) (steps : List Step) : Prop :=
  ∃ table, Step.dropIndex table id ∈ steps

/-- The last step on an index drops it. -/
def DroppedLast (id : IndexId) (steps : List Step) : Prop := ∃ front back table,
    steps = front ++ .dropIndex table id :: back ∧ ∀ step ∈ back, step.index ≠ some id

/-- The last step on an index builds it. -/
def BuiltLast (id : IndexId) (steps : List Step) : Prop :=
  ∃ front back table name, steps = front ++ .buildIndex table id name :: back ∧
      ∀ step ∈ back, step.index ≠ some id

theorem lastStep_cases
    (id : IndexId) (steps : List Step) :
    (∀ step ∈ steps, step.index ≠ some id) ∨
      DroppedLast id steps ∨ BuiltLast id steps := by
  induction steps with
  | nil => exact .inl (fun _ nothing => by cases nothing)
  | cons first rest ih =>
      rcases ih with unrelated | dropped | built
      · by_cases isIndex : first.index = some id
        · right
          cases first with
          | buildIndex table index name =>
              obtain rfl : index = id := some.inj isIndex
              exact .inr ⟨[], rest, table, name, rfl, unrelated⟩
          | dropIndex table index =>
              obtain rfl : index = id := some.inj isIndex
              exact .inl ⟨[], rest, table, rfl, unrelated⟩
          | _ => cases isIndex
        · left
          intro step member
          rcases mem_cons.mp member with rfl | member
          · exact isIndex
          · exact unrelated step member
      · obtain ⟨front, back, table, rfl, unrelated⟩ := dropped
        exact .inr (.inl ⟨first :: front, back, table, rfl, unrelated⟩)
      · obtain ⟨front, back, table, name, rfl, unrelated⟩ := built
        exact .inr (.inr ⟨first :: front, back, table, name, rfl, unrelated⟩)

/-! ## What a plan that is not blocked leaves out -/

variable {table : TableDef} {index : IndexDef}

/-- A record that does not decode is no question of who else writes. -/
theorem isSoleWriterNotEstablished_of_decodeState
    {bytes : Bytes} {refusal : Refusal}
    (failed : decodeState table bytes = .error refusal) :
    refusal.isSoleWriterNotEstablished = false := by
  rw [decodeState] at failed
  split at failed
  · cases failed
    rfl
  · next format version fingerprint ids rest _ =>
      cases isSchema : decodeStateSchema table.name format rest with
      | error other =>
          rw [isSchema] at failed
          cases failed
          rw [decodeStateSchema] at isSchema
          split at isSchema
          · split at isSchema
            · cases isSchema
            · cases isSchema
              rfl
          · split at isSchema
            · split at isSchema
              · cases isSchema
              · cases isSchema
                rfl
            · cases isSchema
              rfl
      | ok schema =>
          rw [isSchema] at failed
          dsimp only [bind, Except.bind] at failed
          split at failed
          · cases failed
            rfl
          · split at failed
            · cases failed
              rfl
            · cases failed
  · cases failed
    rfl

theorem isSoleWriterNotEstablished_of_free
    {plan : MigrationPlan} {sole : Bool}
    (free : (plan.forWriter sole).isBlocked = false)
    {refusal : Refusal}
    (member : refusal ∈ plan.refusals) :
    refusal.isSoleWriterNotEstablished = true := by
  cases sole with
  | false =>
      simp only [MigrationPlan.isBlocked, MigrationPlan.forWriter, Bool.false_eq_true,
        if_false, Bool.not_eq_false', List.isEmpty_iff] at free
      rw [free] at member
      cases member
  | true =>
      simp only [MigrationPlan.isBlocked, MigrationPlan.forWriter, if_true,
        MigrationPlan.withSoleWriter, Bool.not_eq_false', List.isEmpty_iff,
        filter_eq_nil_iff, Bool.not_eq_true'] at free
      exact Bool.of_not_eq_false (free refusal member)

theorem mem_built_of_planAdopted
    {state : TableState}
    (declared : index ∈ table.indexes)
    (noStep : ∀ step ∈ (planAdopted table state).steps, step.index ≠ some index.id) :
    index.id ∈ state.built := by
  by_contra absent
  refine noStep (buildStep table index) ?_ rfl
  have isUnbuilt : index ∈ unbuilt table state := by
    refine mem_filter.mpr ⟨declared, ?_⟩
    rw [Bool.not_eq_true', ← Bool.not_eq_true, contains_iff_mem]
    exact absent
  simp only [planAdopted, mem_append]
  exact .inl (.inl (.inl (mem_map_of_mem isUnbuilt)))

/-- A declared index that a plan passes over is recorded as built. -/
theorem recorded_of_planTable
    {snapshot : Snapshot}
    (declared : index ∈ table.indexes)
    (refusals : ∀ refusal ∈ (planTable snapshot table).refusals,
      refusal.isSoleWriterNotEstablished = true)
    (noStep : ∀ step ∈ (planTable snapshot table).steps, step.index ≠ some index.id) :
    ∃ state, storedState snapshot table = some (.ok state) ∧
      index.id ∈ state.built := by
  cases isStored : storedState snapshot table with
  | none =>
      rw [planTable, isStored] at noStep
      exact absurd rfl (noStep (buildStep table index)
        (mem_cons_of_mem _ (mem_map_of_mem declared)))
  | some read =>
      rw [planTable, isStored] at noStep refusals
      cases read with
      | error refusal =>
          have isSole := refusals refusal (mem_singleton.mpr rfl)
          obtain ⟨bytes, _, failed⟩ := map_eq_some_iff.mp isStored
          rw [isSoleWriterNotEstablished_of_decodeState failed] at isSole
          cases isSole
      | ok state =>
          refine ⟨state, rfl, ?_⟩
          dsimp only at noStep refusals
          rcases planRecorded_cases table state with
            ⟨changes, isPlan⟩ | ⟨added, retired, isPlan⟩ | isPlan
          · rw [isPlan] at refusals
            cases refusals _ (mem_singleton.mpr rfl)
          · rw [isPlan] at noStep
            exact mem_built_of_planAdopted declared (fun step member =>
              noStep step (mem_cons_of_mem _ member))
          · rw [isPlan] at noStep
            exact mem_built_of_planAdopted declared noStep

section

variable
  {catalog : Catalog}
  (wellFormed : catalog.WellFormed)
  (inCatalog : table ∈ catalog.tables)
  (declared : index ∈ table.indexes)

include wellFormed inCatalog declared

theorem resolve_of_declared :
    resolve catalog table.id index.id = .ok (table, index) := by
  have isTable : catalog.table table.id = some table := by
    rw [Catalog.table]
    cases found : catalog.tables.find? (fun other => other.id == table.id) with
    | none =>
        exact absurd (beq_self_eq_true table.id)
          (find?_eq_none.mp found table inCatalog)
    | some other =>
        have sameId := find?_some found
        rw [beq_iff_eq] at sameId
        rw [wellFormed.tableIds other (mem_of_find?_eq_some found) table
          inCatalog sameId]
  have isIndex : table.index index.id = some index := by
    rw [TableDef.index]
    cases found : table.indexes.find? (fun other =>
        other.id == index.id) with
    | none =>
        exact absurd (beq_self_eq_true index.id) (find?_eq_none.mp found index declared)
    | some other =>
        have sameId := find?_some found
        rw [beq_iff_eq] at sameId
        rw [inj_on_of_nodup_map (wellFormed.tables table inCatalog).indexIds
          (mem_of_find?_eq_some found) declared sameId]
  rw [resolve, isTable]
  dsimp only
  rw [isIndex]

theorem table_of_mem_planOf
    {snapshot : Snapshot} {tableId : TableId} {name : String}
    (member : .buildIndex tableId index.id name ∈ (planOf snapshot catalog).steps) :
    tableId = table.id := by
  rw [steps_planOf] at member
  obtain ⟨other, isOther, member⟩ := mem_flatMap.mp member
  have builds : index.id ∈ (planTable snapshot other).steps.filterMap Step.builds :=
    mem_filterMap.mpr ⟨_, member, rfl⟩
  obtain ⟨index', isIndex', sameId⟩ := mem_map.mp
    ((builds_planTable snapshot other).subset builds)
  rw [wellFormed.indexIds table inCatalog other isOther index declared index'
    isIndex' sameId.symm]
  exact table_of_mem_planTable member

end

variable [Platform]

/-! ## Steps in parts -/

namespace Carried

variable
  {catalog : Catalog}
  {store : Kv}
  {committed : List Kv}

variable {front back : List Step} {outcome : Except KernelError Unit}

theorem split
    (carried : Carried catalog (front ++ back) store (.ok ()) committed) :
    ∃ first second, Carried catalog front store (.ok ()) first ∧
      Carried catalog back (latest store first) (.ok ()) second ∧
      committed = first ++ second := by
  induction front generalizing store committed with
  | nil => exact ⟨[], committed, .done, carried, rfl⟩
  | cons step front ih =>
      cases carried with
      | stepped succeeded onward =>
          obtain ⟨first, second, isFirst, isSecond, rfl⟩ := ih onward
          refine ⟨_, second, .stepped succeeded isFirst, ?_, ?_⟩
          · rw [latest_append]
            exact isSecond
          · rw [append_assoc]

theorem alike
    {steps : List Step}
    (carried : Carried catalog steps store outcome committed) {id : IndexId}
    (unrelated : ∀ step ∈ steps, step.index ≠ some id) :
    Alike id store (latest store committed) := by
  intro key ofIndex
  refine (getElem?_latest (carried.elsewhere ?_)).symm
  intro step member id' isIndex ofIndex'
  rw [ofIndex'.unique ofIndex] at isIndex
  exact unrelated step member isIndex

theorem sameElsewhere_latest
    {steps : List Step}
    (carried : Carried catalog steps store outcome committed) :
    SameElsewhere store (latest store committed) :=
  carried.sameElsewhere (latest_mem _ _)

theorem indexEmpty
    {table : TableId} {id : IndexId}
    (carried : Carried catalog (front ++ .dropIndex table id :: back) store
      (.ok ()) committed)
    (notBuilt : ∀ step ∈ back, step.builds ≠ some id) :
    IndexEmpty id (latest store committed) := by
  obtain ⟨first, second, _, isSecond, rfl⟩ := carried.split
  rw [latest_append]
  generalize latest store first = middle at isSecond ⊢
  cases isSecond with
  | stepped _ onward =>
      rw [latest_append]
      intro key ofIndex
      have emptied := (stepRun_drop catalog table id middle).2.emptied
      rcases onward.shrunk notBuilt (latest_mem _ _) key ofIndex with gone | kept
      · exact gone
      · exact kept.trans (emptied key ofIndex)

theorem backfilled
    {tableId : TableId} {indexId : IndexId} {name : String}
    (carried : Carried catalog
      (front ++ .buildIndex tableId indexId name :: back) store (.ok ())
      committed)
    {table : TableDef} {index : IndexDef}
    (known : resolve catalog tableId indexId = .ok (table, index))
    (wellFormed : table.WellFormed)
    (unrelated : ∀ step ∈ back, step.index ≠ some indexId) :
    ∃ first after, Carried catalog front store (.ok ()) first ∧
      Backfilled table index (latest store first) after ∧
      Alike indexId after (latest store committed) ∧
      SameElsewhere after (latest store committed) := by
  obtain ⟨first, second, isFirst, isSecond, rfl⟩ := carried.split
  rw [latest_append]
  refine ⟨first, stepLeaves catalog (.buildIndex tableId indexId name)
    (latest store first), isFirst, ?_⟩
  generalize latest store first = middle at isSecond ⊢
  cases isSecond with
  | stepped succeeded onward =>
      have built := backfills_build table index middle
      obtain ⟨outcome, commits⟩ := stepRun_of_backfills known name built
      rw [← outcome, ← commits, succeeded] at built
      rw [latest_append]
      exact ⟨(built.backfilled wellFormed).2, onward.alike unrelated,
        onward.sameElsewhere_latest⟩

end Carried

/-! ## Complete indexes -/

variable {table : TableDef} {index : IndexDef}

theorem indexComplete_congr
    {first second : Kv} (alike : Alike index.id first second)
    (same : ∀ key, tablePrefix table <+: key → first[key]? = second[key]?) :
    IndexComplete table index first ↔ IndexComplete table index second := by
  have entered := entered_congr same index
  refine forall_congr' (fun key => forall_congr' (fun value => ?_))
  refine imp_congr_right (fun ofIndex => ?_)
  rw [alike key ofIndex, entered key value]

theorem indexComplete_iff_of_empty
    {store : Kv} (empty : IndexEmpty index.id store) :
    IndexComplete table index store ↔
      ∀ key value, ¬Entered table index store key value := by
  constructor
  · rintro complete key value entered
    have ofIndex : OfIndex index.id key := by
      obtain ⟨keyed, _, entry, isEntry, rfl, _⟩ := entered
      obtain ⟨_, values, _, rfl⟩ := mem_admittedEntries.mp isEntry
      exact indexEntry_ofIndex ..
    have held := (complete key value ofIndex).mpr entered
    rw [empty key ofIndex] at held
    cases held
  · intro nothing key value ofIndex
    rw [empty key ofIndex]
    constructor
    · intro held
      cases held
    · intro entered
      exact absurd entered (nothing key value)

theorem builtUpon_iff_of_empty
    {store : Kv} (empty : IndexEmpty index.id store) (keyed : KeyedRow) :
    BuiltUpon table index store keyed ↔ AsBuilt index keyed.row := by
  constructor
  · intro upon
    refine ⟨upon.kept, fun values member => ?_⟩
    rcases upon.others values member with same | held
    · exact same
    · rw [empty _ (indexEntry_ofIndex ..)] at held
      cases held
  · intro asBuilt
    exact ⟨asBuilt.kept, fun values member => .inl (asBuilt.only values member)⟩

theorem builtUpon_congr
    {first second : Kv} (alike : Alike index.id first second)
    (keyed : KeyedRow) :
    BuiltUpon table index first keyed ↔ BuiltUpon table index second keyed := by
  have held (values : List Value) := alike
    (indexEntry table index values keyed.primaryKey).key
    (indexEntry_ofIndex ..)
  constructor
  · rintro ⟨kept, others⟩
    simp only [held] at others
    exact ⟨kept, others⟩
  · rintro ⟨kept, others⟩
    simp only [← held] at others
    exact ⟨kept, others⟩

omit [Platform] in
theorem getElem?_recorded_of_not_metaKey
    (catalog : Catalog) (plan : MigrationPlan) (store : Kv) {key : Bytes}
    (other : ∀ id, key ≠ metaKey id) :
    (carryOut store (recordChanges catalog plan))[key]? = store[key]? := by
  refine getElem?_carryOut_of_absent store ?_
  rintro change isChange rfl
  obtain ⟨table, _, rfl⟩ := mem_map.mp isChange
  exact other table.id rfl

theorem indexComplete_recorded
    (catalog : Catalog) (plan : MigrationPlan) (table : TableDef)
    (index : IndexDef) (store : Kv) :
    IndexComplete table index (carryOut store (recordChanges catalog plan)) ↔
      IndexComplete table index store := by
  refine indexComplete_congr ?_ ?_
  · intro key ofIndex
    refine getElem?_recorded_of_not_metaKey catalog plan store ?_
    rintro id rfl
    exact not_ofIndex_metaKey id index.id ofIndex
  · intro key ofTable
    refine getElem?_recorded_of_not_metaKey catalog plan store ?_
    rintro id rfl
    obtain ⟨bytes, same⟩ := ofTable
    rw [← append_nil (metaKey id)] at same
    exact absurd (header_append_inj same).1 (by decide)

/-- Every declared index that is recorded as built is complete. -/
def RecordedComplete (catalog : Catalog) (store : Kv) : Prop :=
  ∀ table ∈ catalog.tables, ∀ index ∈ table.indexes, ∀ state,
    storedState (RecordState.begin store).transaction table = some (.ok state) →
      index.id ∈ state.built → IndexComplete table index store

/-- Every declared index is complete. -/
def AllComplete (catalog : Catalog) (store : Kv) : Prop :=
  ∀ table ∈ catalog.tables, ∀ index ∈ table.indexes, IndexComplete table index store

/-- Nothing stands in the way of a declared index becoming complete. -/
structure Completes (table : TableDef) (index : IndexDef)
    (steps : List Step) (store : Kv) : Prop where
  /-- What another table's record drops after it is built holds nothing. -/
  dropped : DroppedLast index.id steps →
    ∀ key value, ¬Entered table index store key value
  /-- What is dropped before it is built keeps each row as built. -/
  emptied : BuiltLast index.id steps → DroppedIn index.id steps →
    ∀ keyed, Stores table store keyed → index.admits keyed.row = true →
      AsBuilt index keyed.row
  /-- What is built over entries of others would hold their keys anyway. -/
  upon : BuiltLast index.id steps → ¬DroppedIn index.id steps →
    (∀ key value, Keys.OfIndex index.id key → store[key]? = some value →
      ∃ value', Entered table index store key value') ∧
    ∀ keyed, Stores table store keyed → index.admits keyed.row = true →
      BuiltUpon table index store keyed

omit [Platform] in
theorem not_droppedLast_of_builtLast
    {id : IndexId} {steps : List Step} (built : BuiltLast id steps) :
    ¬DroppedLast id steps := by
  obtain ⟨front, back, table, name, rfl, unrelated⟩ := built
  rintro ⟨front', back', table', same, unrelated'⟩
  rcases append_eq_append_iff.mp same with
    ⟨between, rfl, isBack⟩ | ⟨between, rfl, isBack⟩
  · cases between with
    | nil => cases isBack
    | cons first between =>
        cases isBack
        exact unrelated _ (mem_append_right _ mem_cons_self) rfl
  · cases between with
    | nil => cases isBack
    | cons first between =>
        cases isBack
        exact unrelated' _ (mem_append_right _ mem_cons_self) rfl

section

variable
  {catalog : Catalog}
  (wellFormed : catalog.WellFormed)
  {table : TableDef}
  (inCatalog : table ∈ catalog.tables)
  {index : IndexDef}
  (declared : index ∈ table.indexes)
  {steps : List Step}
  {store : Kv}
  {committed : List Kv}
  (carried : Carried catalog steps store (.ok ()) committed)

include carried

theorem indexComplete_of_droppedLast
    (last : DroppedLast index.id steps) :
    IndexComplete table index (latest store committed) ↔
      ∀ key value, ¬Entered table index store key value := by
  have same := carried.sameElsewhere_latest
  obtain ⟨front, back, tableId, rfl, unrelated⟩ := last
  have empty := carried.indexEmpty (fun step member builds =>
    unrelated step member (by
      cases step with
      | buildIndex _ _ _ => exact builds
      | _ => cases builds))
  rw [indexComplete_iff_of_empty empty]
  refine forall_congr' (fun key => forall_congr' (fun value => not_congr ?_))
  exact (entered_congr (same.ofTable table) index key value).symm

include wellFormed inCatalog declared

variable {front back : List Step} {name : String}

theorem indexComplete_of_built
    (rowKeys : RowKeys table store)
    (isSteps : steps = front ++ .buildIndex table.id index.id name :: back)
    (unrelated : ∀ step ∈ back, step.index ≠ some index.id) :
    ∃ first, Carried catalog front store (.ok ()) first ∧
      (IndexComplete table index (latest store committed) ↔
        (∀ key value, OfIndex index.id key → (latest store first)[key]? = some value →
            ∃ value', Entered table index store key value') ∧
        ∀ keyed, Stores table store keyed → index.admits keyed.row = true →
          BuiltUpon table index (latest store first) keyed) := by
  have tableWellFormed := wellFormed.tables table inCatalog
  rw [isSteps] at carried
  obtain ⟨first, after, isFirst, backfilled, alike, same⟩ := carried.backfilled
    (resolve_of_declared wellFormed inCatalog declared) tableWellFormed unrelated
  have sameTable := isFirst.sameElsewhere_latest.ofTable table
  have rowKeysFirst : RowKeys table (latest store first) := fun key body ofTable held =>
      rowKeys key body ofTable ((sameTable key ofTable).trans held)
  refine ⟨first, isFirst, ?_⟩
  rw [← indexComplete_congr alike (same.ofTable table),
    indexComplete_backfilled_iff tableWellFormed declared rowKeysFirst backfilled]
  simp only [entered_congr sameTable, stores_congr sameTable]

section

variable
  (rowKeys : RowKeys table store)
  (builtOnce : (steps.filterMap Step.builds).Nodup)
  (isSteps : steps = front ++ .buildIndex table.id index.id name :: back)
  (unrelated : ∀ step ∈ back, step.index ≠ some index.id)

include rowKeys builtOnce isSteps unrelated

theorem indexComplete_of_emptied
    (dropped : DroppedIn index.id steps) :
    IndexComplete table index (latest store committed) ↔
      ∀ keyed, Stores table store keyed → index.admits keyed.row = true →
        AsBuilt index keyed.row := by
  obtain ⟨first, isFirst, complete⟩ := indexComplete_of_built wellFormed
    inCatalog declared carried rowKeys isSteps unrelated
  have empty : IndexEmpty index.id (latest store first) := by
    obtain ⟨tableId, member⟩ := dropped
    rw [isSteps] at member builtOnce
    rcases mem_append.mp member with inFront | member
    · obtain ⟨before, between, rfl⟩ := mem_iff_append.mp inFront
      refine isFirst.indexEmpty ?_
      intro step isBetween builds
      have inFront : index.id ∈ (before ++ .dropIndex tableId index.id ::
          between).filterMap Step.builds :=
        mem_filterMap.mpr ⟨step, mem_append_right _
          (mem_cons_of_mem _ isBetween), builds⟩
      rw [filterMap_append] at builtOnce
      exact disjoint_of_nodup_append builtOnce inFront
        (mem_filterMap.mpr ⟨_, mem_cons_self, rfl⟩)
    · rcases mem_cons.mp member with isBuild | inBack
      · cases isBuild
      · exact absurd rfl (unrelated _ inBack)
  rw [complete]
  simp only [builtUpon_iff_of_empty empty]
  refine and_iff_right ?_
  intro key value ofIndex held
  rw [empty key ofIndex] at held
  cases held

theorem indexComplete_of_upon
    (kept : ¬DroppedIn index.id steps) :
    IndexComplete table index (latest store committed) ↔
      (∀ key value, OfIndex index.id key → store[key]? = some value →
        ∃ value', Entered table index store key value') ∧
      ∀ keyed, Stores table store keyed → index.admits keyed.row = true →
        BuiltUpon table index store keyed := by
  obtain ⟨first, isFirst, complete⟩ := indexComplete_of_built wellFormed
    inCatalog declared carried rowKeys isSteps unrelated
  have untouched : ∀ step ∈ front, step.index ≠ some index.id := by
    intro step inFront isIndex
    rw [isSteps] at builtOnce
    cases step with
    | buildIndex tableId indexId name' =>
        rw [filterMap_append] at builtOnce
        exact disjoint_of_nodup_append builtOnce (mem_filterMap.mpr
          ⟨_, inFront, isIndex⟩) (mem_filterMap.mpr ⟨_, mem_cons_self, rfl⟩)
    | dropIndex tableId indexId =>
        obtain rfl : indexId = index.id := some.inj isIndex
        exact kept ⟨tableId, by
          rw [isSteps]
          exact mem_append_left _ inFront⟩
    | _ => cases isIndex
  have alike := isFirst.alike untouched
  rw [complete]
  refine and_congr ?_ ?_
  · refine forall_congr' (fun key => forall_congr' (fun value => ?_))
    exact imp_congr_right (fun ofIndex => by rw [alike key ofIndex])
  · refine forall_congr' (fun keyed => imp_congr_right (fun _ => ?_))
    exact imp_congr_right (fun _ => (builtUpon_congr alike keyed).symm)

end

end

/-- What the steps of a plan leave of an index. -/
theorem indexComplete_carried_iff
    {catalog : Catalog}
    (wellFormed : catalog.WellFormed)
    (distinct : (catalog.tables.map TableDef.id).Nodup) {store : Kv}
    (recorded : RecordedComplete catalog store) {sole : Bool}
    (free : ((plan store catalog).forWriter sole).isBlocked = false)
    {committed : List Kv}
    (carried : Carried catalog (plan store catalog).steps store (.ok ()) committed)
    {table : TableDef}
    (inCatalog : table ∈ catalog.tables)
    (rowKeys : RowKeys table store) {index : IndexDef}
    (declared : index ∈ table.indexes) :
    IndexComplete table index (latest store committed) ↔
      Completes table index (plan store catalog).steps store := by
  have builtOnce : ((plan store catalog).steps.filterMap Step.builds).Nodup :=
    nodup_builds_planOf wellFormed distinct _
  rcases lastStep_cases index.id (plan store catalog).steps with
    untouched | dropped | built
  · have complete : IndexComplete table index store := by
      have inPlan : ∀ step ∈ (planTable (begin store).transaction table).steps,
          step ∈ (plan store catalog).steps := by
        intro step member
        rw [plan, steps_planOf]
        exact mem_flatMap.mpr ⟨table, inCatalog, member⟩
      obtain ⟨state, isState, isBuilt⟩ := recorded_of_planTable declared
        (fun refusal member => isSoleWriterNotEstablished_of_free free (by
          rw [plan, refusals_planOf]
          exact mem_flatMap.mpr ⟨table, inCatalog, member⟩))
        (fun step member => untouched step (inPlan step member))
      exact recorded table inCatalog index declared state isState isBuilt
    refine iff_of_true ((indexComplete_congr (carried.alike untouched)
      (carried.sameElsewhere_latest.ofTable table)).mp complete) ?_
    constructor
    · rintro ⟨front, back, tableId, isSteps, _⟩
      exact absurd rfl (untouched (.dropIndex tableId index.id) (by
        rw [isSteps]
        exact mem_append_right _ mem_cons_self))
    · rintro _ ⟨tableId, member⟩
      exact absurd rfl (untouched _ member)
    · rintro ⟨front, back, tableId, name, isSteps, _⟩
      exact absurd rfl (untouched (.buildIndex tableId index.id name) (by
        rw [isSteps]
        exact mem_append_right _ mem_cons_self))
  · rw [indexComplete_of_droppedLast carried dropped]
    constructor
    · intro nothing
      refine ⟨fun _ => nothing, fun built => ?_, fun built => ?_⟩
      · exact absurd dropped (not_droppedLast_of_builtLast built)
      · exact absurd dropped (not_droppedLast_of_builtLast built)
    · intro completes
      exact completes.dropped dropped
  · have notDropped := not_droppedLast_of_builtLast built
    have isLast := built
    obtain ⟨front, back, tableId, name, isSteps, unrelated⟩ := isLast
    have isStep : .buildIndex tableId index.id name ∈
        (planOf (begin store).transaction catalog).steps := by
      rw [← plan, isSteps]
      exact mem_append_right _ mem_cons_self
    rw [table_of_mem_planOf wellFormed inCatalog declared isStep] at isSteps
    by_cases isDropped : DroppedIn index.id (plan store catalog).steps
    · rw [indexComplete_of_emptied wellFormed inCatalog declared carried
        rowKeys builtOnce isSteps unrelated isDropped]
      constructor
      · intro asBuilt
        exact ⟨fun dropped => absurd dropped notDropped, fun _ _ => asBuilt,
          fun _ kept => absurd isDropped kept⟩
      · intro completes
        exact completes.emptied built isDropped
    · rw [indexComplete_of_upon wellFormed inCatalog declared carried rowKeys
        builtOnce isSteps unrelated isDropped]
      constructor
      · intro upon
        exact ⟨fun dropped => absurd dropped notDropped,
          fun _ dropped => absurd dropped isDropped, fun _ _ => upon⟩
      · intro completes
        exact completes.upon built isDropped

/--
A plan that is applied leaves every declared index complete exactly when no
index is dropped after it is built unless it has nothing to hold, and each index
that is built holds every row as built, given what was under its keys.
-/
theorem allComplete_migrated_iff
    {tables : List TableDef}
    (built : ∀ table ∈ tables, ∃ builder : TableBuilder, builder.build = .ok table)
    {catalog : Catalog}
    (made : Catalog.fromTables tables = .ok catalog)
    {store : Kv}
    (rowKeys : ∀ table ∈ catalog.tables, RowKeys table store)
    (recorded : RecordedComplete catalog store) {sole : Bool} {report : Report}
    (success : ((migrateAs sole catalog).run store).1 = .ok report) :
    AllComplete catalog
        (latest store ((migrateAs sole catalog).run store).2) ↔
      ∀ table ∈ catalog.tables, ∀ index ∈ table.indexes,
        Completes table index (plan store catalog).steps store := by
  have wellFormed := Catalog.wellFormed_of_fromTables built made
  have distinct := Catalog.nodup_of_fromTables made
  have isRun : (migrateAs sole catalog).run store =
      (apply catalog ((plan store catalog).forWriter sole)).run store := rfl
  rw [isRun] at success ⊢
  cases free : ((plan store catalog).forWriter sole).isBlocked with
  | true =>
      rw [run_apply_of_blocked free] at success
      cases success
  | false =>
      obtain ⟨committed, ran⟩ := run_apply_cases free catalog store
      rcases ran with ⟨error, _, ran⟩ | ⟨report', carried, ran⟩
      · rw [ran] at success
        cases success
      · rw [MigrationPlan.steps_forWriter] at carried
        rw [ran, latest_append]
        refine forall_congr' (fun table => imp_congr_right (fun inCatalog =>
          forall_congr' (fun index => imp_congr_right (fun declared => ?_))))
        rw [← indexComplete_carried_iff wellFormed distinct recorded free
          carried inCatalog (rowKeys table inCatalog) declared]
        exact indexComplete_recorded catalog _ table index _

end Migration

/-! ## An index that two tables take in turn -/

/-- Orders, with the indexes that they are declared with. -/
def ordersBuilder (indexes : List IndexBuilder) : TableBuilder where
  id := 1
  name := "orders"
  columns := [
    { name := "id", type := .i64 },
    { name := "customer", type := .i64 }]
  primaryKey := ["id"]
  indexes := indexes

def orders (indexes : List IndexDef) : TableDef where
  id := 1
  name := "orders"
  columns := (ordersBuilder []).columns.map ColumnSpec.toColumn
  primaryKey := [0]
  bodyColumns := [1]
  storedColumns := [1]
  indexes := indexes
  checks := []
  foreignKeys := []
  tenantColumn := none
  softDelete := none
  schemaVersion := 0

/-- Returned orders, which are laid out alike. -/
def returnsBuilder (indexes : List IndexBuilder) : TableBuilder :=
  { ordersBuilder indexes with id := 2, name := "returns" }

def returns (indexes : List IndexDef) : TableDef :=
  { orders indexes with id := 2, name := "returns" }

def byCustomerBuilder : IndexBuilder where
  id := 7
  name := "by_customer"
  columns := [("customer", .asc)]

def byCustomer : IndexDef := ⟨7, "by_customer", [⟨1, .asc⟩], false, none, none, false⟩

/-- The returns have the index. -/
def indexedReturns : Catalog := ⟨[orders [], returns [byCustomer]]⟩

/-- The orders have it. -/
def indexedOrders : Catalog := ⟨[orders [byCustomer], returns []]⟩

namespace Migration

/-- Two orders, after a migration that gave the index to the returns. -/
def twoOrders : Kv :=
  letI := asciiPlatform
  let store := onlyRows (orders []) [⟨[.i64 1, .i64 10]⟩, ⟨[.i64 2, .i64 11]⟩]
  Migrating.latest store ((migrateAs false indexedReturns).run store).2

theorem keys_twoOrders :
    twoOrders.keys = [rowKey (orders []) [.i64 1], rowKey (orders []) [.i64 2],
      metaKey 1, metaKey 2] := by
  decide +kernel

theorem key_of_twoOrders
    {key value : Bytes}
    (held : twoOrders[key]? = some value) :
    (∃ id, key = rowKey (orders []) [.i64 id]) ∨ ∃ id, key = metaKey id := by
  have member : key ∈ twoOrders.keys := by
    rw [Std.ExtTreeMap.mem_keys, Std.ExtTreeMap.mem_iff_isSome_getElem?, held]
    rfl
  rw [keys_twoOrders] at member
  simp only [mem_cons, not_mem_nil, or_false] at member
  rcases member with isKey | isKey | isKey | isKey
  · exact .inl ⟨1, isKey⟩
  · exact .inl ⟨2, isKey⟩
  · exact .inr ⟨1, isKey⟩
  · exact .inr ⟨2, isKey⟩

theorem indexEmpty_twoOrders
    (id : IndexId) :
    IndexEmpty id twoOrders := by
  intro key ofIndex
  cases held : twoOrders[key]? with
  | none => rfl
  | some value =>
      rcases key_of_twoOrders held with ⟨_, rfl⟩ | ⟨table, rfl⟩
      · exact absurd ofIndex (not_ofIndex_rowKey _ _ _)
      · exact absurd ofIndex (not_ofIndex_metaKey table id)

theorem key_of_table_twoOrders
    {table : TableDef} {key value : Bytes}
    (ofTable : tablePrefix table <+: key)
    (held : twoOrders[key]? = some value) :
    table.id = 1 ∧ ∃ id, key = rowKey (orders []) [.i64 id] := by
  obtain ⟨bytes, same⟩ := ofTable
  rcases key_of_twoOrders held with ⟨id, rfl⟩ | ⟨_, rfl⟩
  · exact ⟨(header_append_inj same).2.1, id, rfl⟩
  · rw [← append_nil (metaKey _)] at same
    exact absurd (header_append_inj same).1 (by decide)

theorem rowKeys_twoOrders
    (indexes indexes' : List IndexDef) :
    ∀ table ∈ [orders indexes, returns indexes'], RowKeys table twoOrders := by
  intro table member key body ofTable held
  obtain ⟨isFirst, id, isKey⟩ := key_of_table_twoOrders ofTable held
  simp only [mem_cons, not_mem_nil, or_false] at member
  rcases member with rfl | rfl
  · exact ⟨⟨[.i64 id, .i64 10]⟩, isKey⟩
  · cases isFirst

/-- Every table of a catalog is recorded as migrated, and rightly so. -/
structure MigratedTo [Platform] (catalog : Catalog) (store : Kv) : Prop where
  records : ∀ table ∈ catalog.tables,
    store[Keys.metaKey table.id]? = some (encodeState (migratedState table))
  complete : AllComplete catalog store

theorem migratedTo_twoOrders :
    letI := asciiPlatform
    MigratedTo indexedReturns twoOrders := by
  let _ : Platform := asciiPlatform
  constructor
  · decide +kernel
  · intro table member index declared
    refine (indexComplete_iff_of_empty (indexEmpty_twoOrders index.id)).mpr ?_
    rintro key value ⟨keyed, ⟨ofTable, body, held, _⟩, _⟩
    obtain ⟨isFirst, _⟩ := key_of_table_twoOrders ofTable held
    simp only [indexedReturns, mem_cons, not_mem_nil, or_false] at member
    rcases member with rfl | rfl
    · cases declared
    · cases isFirst

theorem recordedComplete_twoOrders
    (indexes : List IndexDef) :
    letI := asciiPlatform
    RecordedComplete ⟨[orders indexes, returns []]⟩ twoOrders := by
  let _ : Platform := asciiPlatform
  have nothingBuilt : (storedState (begin twoOrders).transaction (orders [])).map
      (fun read => read.toOption.map TableState.built) = some (some []) := by
    decide +kernel
  intro table member index declared state isState isBuilt
  rcases mem_cons.mp member with rfl | member
  · have isState : storedState (begin twoOrders).transaction (orders []) =
        some (.ok state) := isState
    rw [isState] at nothingBuilt
    have noneBuilt : state.built = [] := some.inj (some.inj nothingBuilt)
    rw [noneBuilt] at isBuilt
    cases isBuilt
  · rw [mem_singleton.mp member] at declared
    cases declared

/--
A plan builds an index for the orders and then drops it for the returns, which
had it before: none of its entries is left.
-/
theorem not_allComplete_reassigned :
    ¬∀ (_ : Platform) (tables : List TableDef) (catalog : Catalog),
      (∀ table ∈ tables, ∃ builder : TableBuilder, builder.build = .ok table) →
      Catalog.fromTables tables = .ok catalog →
      ∀ (earlier : Catalog) (store : Kv), MigratedTo earlier store →
        (∀ table ∈ catalog.tables, RowKeys table store) →
        RecordedComplete catalog store →
        ∀ sole report, ((migrateAs sole catalog).run store).1 = .ok report →
          AllComplete catalog (latest store
              ((migrateAs sole catalog).run store).2) := by
  intro always
  let _ : Platform := asciiPlatform
  have succeeds : ((migrateAs false indexedOrders).run twoOrders).1.isOk = true := by
    decide +kernel
  cases success : ((migrateAs false indexedOrders).run twoOrders).1 with
  | error error =>
      rw [success] at succeeds
      cases succeeds
  | ok report =>
      have complete := always asciiPlatform
        [orders [byCustomer], returns []] indexedOrders ?built rfl
        indexedReturns twoOrders migratedTo_twoOrders
        (rowKeys_twoOrders [byCustomer] [])
        (recordedComplete_twoOrders [byCustomer]) false report success
        (orders [byCustomer]) mem_cons_self byCustomer
        (mem_singleton.mpr rfl)
      case built =>
        intro table member
        simp only [mem_cons, not_mem_nil, or_false] at member
        rcases member with rfl | rfl
        · exact ⟨ordersBuilder [byCustomerBuilder], rfl⟩
        · exact ⟨returnsBuilder [], rfl⟩
      let after := latest twoOrders
        ((migrateAs false indexedOrders).run twoOrders).2
      let order : KeyedRow :=
        ⟨rowKey (orders []) [.i64 1], [.i64 1], ⟨[.i64 1, .i64 10]⟩⟩
      let entry := indexEntry (orders [byCustomer]) byCustomer [.i64 10] [.i64 1]
      have held : after[order.key]? = some (encodeBody (orders []) order.row) := by
        decide +kernel
      have gone : after[entry.key]? = none := by
        decide +kernel
      have stored : Stores (orders [byCustomer]) after order :=
        ⟨prefix_append .., _, held, rfl⟩
      have isEntry : entry ∈
          admittedEntries (orders [byCustomer]) byCustomer order.row :=
        mem_singleton.mpr rfl
      have kept := (complete entry.key entry.value (indexEntry_ofIndex ..)).mpr
          ⟨order, stored, entry, isEntry, rfl, rfl⟩
      cases gone.symm.trans kept

/-- The orders have the index under another id, and the returns have none. -/
def reindexedOrders : Catalog := ⟨[orders [{ byCustomer with id := 8 }], returns []]⟩

/--
The index of the returns is dropped, and the one of the orders is built over both
of them.
-/
theorem allComplete_reindexed :
    letI := asciiPlatform
    AllComplete reindexedOrders
      (latest twoOrders ((migrateAs false reindexedOrders).run twoOrders).2) := by
  let _ : Platform := asciiPlatform
  have succeeds : ((migrateAs false reindexedOrders).run twoOrders).1.isOk = true := by
    decide +kernel
  have isSteps : (plan twoOrders reindexedOrders).steps =
      [.buildIndex 1 8 "by_customer", .dropIndex 2 7] := by
    decide +kernel
  cases success : ((migrateAs false reindexedOrders).run twoOrders).1 with
  | error error =>
      rw [success] at succeeds
      cases succeeds
  | ok report =>
      have made : Catalog.fromTables reindexedOrders.tables = .ok reindexedOrders :=
        rfl
      refine (allComplete_migrated_iff ?_ made (rowKeys_twoOrders _ _)
        (recordedComplete_twoOrders _) success).mpr ?_
      · intro table member
        rcases mem_cons.mp member with rfl | member
        · exact ⟨ordersBuilder [{ byCustomerBuilder with id := 8 }], rfl⟩
        · rw [mem_singleton.mp member]
          exact ⟨returnsBuilder [], rfl⟩
      · intro table member index declared
        rw [isSteps]
        rcases mem_cons.mp member with rfl | member
        · rw [mem_singleton.mp declared]
          have empty := indexEmpty_twoOrders 8
          have notDropped : ¬DroppedIn 8
              [.buildIndex 1 8 "by_customer", .dropIndex 2 7] := by
            rintro ⟨tableId, isStep⟩
            simp at isStep
          constructor
          · rintro ⟨front, back, tableId, same, _⟩
            refine absurd ⟨tableId, ?_⟩ notDropped
            rw [same]
            exact mem_append_right _ mem_cons_self
          · intro _ dropped
            exact absurd dropped notDropped
          · intro _ _
            refine ⟨?_, fun keyed _ _ => (builtUpon_iff_of_empty empty
              keyed).mpr (asBuilt_of_not_text rfl keyed.row)⟩
            intro key value ofIndex held
            rw [empty key ofIndex] at held
            cases held
        · rw [mem_singleton.mp member] at declared
          cases declared

end Migration

end SlateOrm
