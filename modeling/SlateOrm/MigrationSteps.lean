import SlateOrm.BackfillEntries
import SlateOrm.MigrationPlans

namespace SlateOrm

open List Keys Write Overlay Migrating RecordState

/-!
# The steps of a migration

A step that builds or drops an index works on the keys of that index alone.
What a whole list of steps makes of an index is therefore what the steps about
that index make of it, one after the other, and rows and recorded states stay
as they are until every step has been carried out.
-/

namespace Migration

/-! ## Dropping entries -/

/-- What a drop of an index may have left of a store. -/
structure Dropping (id : IndexId) (store after : Kv) : Prop where
  elsewhere : ∀ key, ¬Keys.OfIndex id key → after[key]? = store[key]?
  shrinks : ∀ key, Keys.OfIndex id key → after[key]? = none ∨ after[key]? = store[key]?

namespace Dropping

variable {id : IndexId} {store middle after : Kv}

theorem trans
    (first : Dropping id store middle) (second : Dropping id middle after) :
    Dropping id store after := by
  constructor
  · intro key other
    exact (second.elsewhere key other).trans (first.elsewhere key other)
  · intro key ofIndex
    rcases second.shrinks key ofIndex with gone | same
    · exact .inl gone
    · rw [same]
      exact first.shrinks key ofIndex

end Dropping

/-- The entries of an index, in order. -/
def entriesOf (id : IndexId) (store : Kv) : List (Bytes × Bytes) :=
  Overlay.listing (KeyRange.ofPrefix (Keys.indexPrefixOf id)).contains store

variable {id : IndexId} {store : Kv}

theorem contains_indexPrefixOf
    {key : Bytes} :
    (KeyRange.ofPrefix (indexPrefixOf id)).contains key = true ↔ OfIndex id key := by
  rw [KeyRange.contains_ofPrefix]
  constructor
  · rintro ⟨bytes, rfl⟩
    exact ⟨bytes, rfl⟩
  · rintro ⟨bytes, rfl⟩
    exact ⟨bytes, rfl⟩

theorem mem_entriesOf
    {key value : Bytes} :
    (key, value) ∈ entriesOf id store ↔ OfIndex id key ∧ store[key]? = some value := by
  rw [entriesOf, mem_listing, contains_indexPrefixOf]

theorem indexEmpty_of_entriesOf
    (nothing : entriesOf id store = []) :
    IndexEmpty id store := by
  intro key ofIndex
  cases held : store[key]? with
  | none => rfl
  | some value =>
      have listed := mem_entriesOf.mpr ⟨ofIndex, held⟩
      rw [nothing] at listed
      cases listed

/-- A batch of a drop removes the first entries. -/
theorem run_dropBatch
    (id : IndexId) (store : Kv) :
    (transact (dropBatch id)).run store =
      (.ok ((entriesOf id store).take BACKFILL_BATCH).length, [carryOut store
          (Overlay.removals ((entriesOf id store).take BACKFILL_BATCH))]) := by
  let dead : List KeyValue := ((entriesOf id store).take BACKFILL_BATCH).map
      (fun entry => ⟨entry.1, entry.2⟩)
  have listed : ((begin store).transaction.scan
      (KeyRange.ofPrefix (indexPrefixOf id)) .ascending).take
        BACKFILL_BATCH = dead := by
    rw [scan_begin, ← map_take]
    rfl
  have read : (reading (fun snapshot =>
      .ok ((snapshot.scan (KeyRange.ofPrefix (indexPrefixOf id))
        .ascending).take BACKFILL_BATCH))).run (.begin store) =
        (.ok dead, .begin store) := by
    rw [run_reading, listed]
  have deleted : (forEach (fun pair : KeyValue =>
      delete pair.key) dead).run (.begin store) = (.ok (), (begin store).changed
          (dead.flatMap (fun pair => [(pair.key, none)]))) :=
    run_forEach_changes (fun pair _ state => run_delete pair.key state) _
  have removed : dead.flatMap (fun pair => [((pair.key, none) : Change)]) =
        removals ((entriesOf id store).take BACKFILL_BATCH) := by
    rw [← map_eq_flatMap, map_map]
    rfl
  refine run_transact_of_ok ?_
  rw [dropBatch, run_bind_of_ok read, run_bind_of_ok deleted,
    removed, Write.run_pure, length_map]

theorem dropping_removed
    (id : IndexId) (store : Kv) :
    Dropping id store (carryOut store
      (removals ((entriesOf id store).take BACKFILL_BATCH))) := by
  constructor
  · intro key other
    rw [getElem?_removed, if_neg]
    intro isRemoved
    obtain ⟨⟨key', value⟩, member, rfl⟩ := mem_map.mp isRemoved
    exact other (mem_entriesOf.mp (mem_of_mem_take member)).1
  · intro key _
    rw [getElem?_removed]
    split
    · exact .inl rfl
    · exact .inr rfl

theorem dropFrom_succ
    (id : IndexId) (fuel : Nat) :
    dropFrom id (fuel + 1) = (do
      let batch ← transact (dropBatch id)
      if batch < BACKFILL_BATCH then
        return ()
      else
        dropFrom id fuel) :=
  rfl

/-- How a drop goes, from whatever is there. -/
structure DropRun (id : IndexId) (store : Kv) (committed : List Kv) :
    Prop where
  dropping : ∀ after ∈ committed, Dropping id store after
  emptied : IndexEmpty id (Migrating.latest store committed)
  latest : Dropping id store (Migrating.latest store committed)

/-- A drop removes every entry of its index. -/
theorem run_dropFrom
    {fuel : Nat}
    (enough : (entriesOf id store).length < fuel) :
    ∃ committed, (dropFrom id fuel).run store = (.ok (), committed) ∧
      DropRun id store committed := by
  induction fuel generalizing store with
  | zero => omega
  | succ fuel ih =>
      have ranBatch := run_dropBatch id store
      have removed := dropping_removed id store
      have left : entriesOf id (carryOut store
          (removals ((entriesOf id store).take BACKFILL_BATCH))) =
          (entriesOf id store).drop BACKFILL_BATCH :=
        listing_removed (take_append_drop ..).symm
      generalize carryOut store (removals ((entriesOf id store).take
        BACKFILL_BATCH)) = after at ranBatch removed left
      rw [dropFrom_succ, run_bind_of_ok ranBatch]
      by_cases short :
          ((entriesOf id store).take BACKFILL_BATCH).length < BACKFILL_BATCH
      · rw [if_pos short]
        refine ⟨[after], rfl, ?_, ?_, removed⟩
        · intro next member
          rw [mem_singleton.mp member]
          exact removed
        · apply indexEmpty_of_entriesOf
          rw [length_take] at short
          exact left.trans (drop_of_length_le (by omega))
      · rw [length_take] at short
        have fewer : (entriesOf id after).length < fuel := by
          rw [left, length_drop]
          have positive : 0 < BACKFILL_BATCH := by decide
          omega
        obtain ⟨committed, ran, dropped⟩ := ih fewer
        rw [if_neg (by rw [length_take]; exact short)]
        have latestAfter : latest store [after] = after := rfl
        rw [latestAfter, ran]
        refine ⟨after :: committed, rfl, ?_, ?_, ?_⟩
        · intro next member
          rcases mem_cons.mp member with rfl | member
          · exact removed
          · exact removed.trans (dropped.dropping next member)
        · rw [latest_cons]
          exact dropped.emptied
        · rw [latest_cons]
          exact removed.trans dropped.latest

theorem run_dropEntries
    (id : IndexId) (store : Kv) :
    ∃ committed, (dropEntries id).run store = (.ok (), committed) ∧
      DropRun id store committed := by
  refine run_dropFrom ?_
  rw [entriesOf, listing]
  have fewer := length_filter_le (fun entry : Bytes × Bytes =>
      (KeyRange.ofPrefix (indexPrefixOf id)).contains entry.1)
    store.toList
  omega

end Migration

/-- The index that a step works on. -/
def Step.index : Step → Option IndexId
  | buildIndex _ index _ => some index
  | dropIndex _ index => some index
  | _ => none

namespace Migration

variable [Platform]

/-! ## One step -/

variable {outcome : Except KernelError Unit} {key : Bytes}

theorem Backfills.elsewhere
    {table : TableDef} {index : IndexDef} {pairs : List KeyValue} {store : Kv}
    {committed : List Kv}
    (built : Backfills table index pairs store outcome committed)
    (other : ¬OfIndex index.id key) :
    ∀ after ∈ committed, after[key]? = store[key]? := by
  induction built with
  | refused =>
      intro after nothing
      cases nothing
  | finished =>
      intro after member
      rw [mem_singleton.mp member]
      exact getElem?_backfilled_of_not_ofIndex other ..
  | resumed _ _ _ ih =>
      intro after member
      rcases mem_cons.mp member with rfl | member
      · exact getElem?_backfilled_of_not_ofIndex other ..
      · rw [ih after member]
        exact getElem?_backfilled_of_not_ofIndex other ..

/-- What a step may turn out to be. -/
inductive StepRun (catalog : Catalog) (store : Kv) :
    Step → Except KernelError Unit → List Kv → Prop where
  | unresolved {table : TableId} {index : IndexId} {name : String} {error : KernelError}
      (unknown : resolve catalog table index = .error error) :
      StepRun catalog store (.buildIndex table index name) (.error error) []
  | build {table : TableDef} {index : IndexDef} {tableId : TableId} {indexId : IndexId}
      {name : String}
      {outcome : Except KernelError Unit}
      {committed : List Kv}
      (known : resolve catalog tableId indexId = .ok (table, index))
      (built : Backfills table index (pairsAfter table none store) store
        outcome committed) :
      StepRun catalog store (.buildIndex tableId indexId name) outcome committed
  | drop {table : TableId} {index : IndexId} {committed : List Kv}
      (dropped : DropRun index store committed) :
      StepRun catalog store (.dropIndex table index) (.ok ()) committed
  | nothing {step : Step} (idle : step.index = none) :
      StepRun catalog store step (.ok ()) []

/-- A step is a build, a drop or nothing. -/
theorem stepRun_runStep
    (catalog : Catalog) (step : Step) (store : Kv) :
    StepRun catalog store step (((runStep catalog step).run store).1.map (fun _ => ()))
      ((runStep catalog step).run store).2 := by
  cases step with
  | buildIndex tableId indexId name =>
      rw [runStep]
      cases known : resolve catalog tableId indexId with
      | error error => exact .unresolved known
      | ok found =>
          obtain ⟨table, index⟩ := found
          have built := backfills_build table index store
          dsimp only
          cases ran : (build table index).run store with
          | mk outcome committed =>
              rw [ran] at built
              cases outcome with
              | error error =>
                  rw [run_bind_of_error ran]
                  exact .build known built
              | ok written =>
                  rw [run_bind_of_ok ran]
                  simp only [Migrating.run_pure, append_nil]
                  exact .build known built
  | dropIndex tableId indexId =>
      obtain ⟨committed, ran, dropped⟩ := run_dropEntries indexId store
      rw [runStep, run_bind_of_ok ran]
      simp only [Migrating.run_pure, append_nil]
      exact .drop dropped
  | register table name
  | noteVersion table recorded declared
  | widenSchema table name added retired
  | recordSchema table name => exact .nothing rfl

omit [Platform] in
theorem declared_of_resolve
    {catalog : Catalog} {tableId : TableId} {indexId : IndexId}
    {table : TableDef} {index : IndexDef}
    (known : resolve catalog tableId indexId = .ok (table, index)) :
    table ∈ catalog.tables ∧ table.id = tableId ∧
      index ∈ table.indexes ∧ index.id = indexId := by
  rw [resolve] at known
  split at known
  · cases known
  · next found =>
      split at known
      · cases known
      · next found' =>
          cases known
          have isTable := find?_some found
          have isIndex := find?_some found'
          rw [beq_iff_eq] at isTable isIndex
          exact ⟨mem_of_find?_eq_some found, isTable,
            mem_of_find?_eq_some found', isIndex⟩

theorem StepRun.elsewhere
    {catalog : Catalog} {store : Kv} {step : Step} {committed : List Kv}
    (ran : StepRun catalog store step outcome committed)
    (other : ∀ id, step.index = some id → ¬OfIndex id key) :
    ∀ after ∈ committed, after[key]? = store[key]? := by
  cases ran with
  | unresolved =>
      intro after nothing
      cases nothing
  | build known built =>
      have isIndex := (declared_of_resolve known).2.2.2
      refine built.elsewhere ?_
      rw [isIndex]
      exact other _ rfl
  | drop dropped =>
      intro after member
      exact (dropped.dropping after member).elsewhere key (other _ rfl)
  | nothing =>
      intro after nothing
      cases nothing

/-! ## All steps -/

/-- How a step ends. -/
def stepOutcome (catalog : Catalog) (step : Step) (store : Kv) :
    Except KernelError Unit :=
  ((runStep catalog step).run store).1.map (fun _ => ())

/-- What a step commits. -/
def stepCommits (catalog : Catalog) (step : Step) (store : Kv) : List Kv :=
  ((runStep catalog step).run store).2

/-- What a step leaves. -/
def stepLeaves (catalog : Catalog) (step : Step) (store : Kv) : Kv :=
  Migrating.latest store (stepCommits catalog step store)

theorem stepRun
    (catalog : Catalog) (step : Step) (store : Kv) :
    StepRun catalog store step (stepOutcome catalog step store)
      (stepCommits catalog step store) :=
  stepRun_runStep catalog step store

theorem stepCommits_elsewhere
    (catalog : Catalog) {step : Step} (store : Kv)
    (other : ∀ id, step.index = some id → ¬OfIndex id key) :
    ∀ after ∈ stepCommits catalog step store, after[key]? = store[key]? :=
  (stepRun catalog step store).elsewhere other

/-- How steps go one after the other: their end, and what they commit. -/
inductive Carried (catalog : Catalog) :
    List Step → Kv → Except KernelError Unit → List Kv → Prop where
  | done {store : Kv} : Carried catalog [] store (.ok ()) []
  | stopped {step : Step} {rest : List Step} {store : Kv} {error : KernelError}
      (failed : stepOutcome catalog step store = .error error) :
      Carried catalog (step :: rest) store (.error error)
        (stepCommits catalog step store)
  | stepped {step : Step} {rest : List Step} {store : Kv}
      {outcome : Except KernelError Unit}
      {more : List Kv}
      (succeeded : stepOutcome catalog step store = .ok ())
      (onward : Carried catalog rest (stepLeaves catalog step store) outcome more) :
      Carried catalog (step :: rest) store outcome
        (stepCommits catalog step store ++ more)

/-- The steps of a plan are carried out one after the other. -/
theorem carried_runSteps
    (catalog : Catalog) (steps : List Step) (report : Report) (store : Kv) :
    Carried catalog steps store
      (((runSteps catalog steps report).run store).1.map (fun _ => ()))
      ((runSteps catalog steps report).run store).2 := by
  induction steps generalizing report store with
  | nil => exact .done
  | cons step rest ih =>
      rw [runSteps]
      cases ran : (runStep catalog step).run store with
      | mk outcome committed =>
          cases outcome with
          | error error =>
              rw [run_bind_of_error ran]
              have failed : stepOutcome catalog step store = .error error := by
                rw [stepOutcome, ran]
                rfl
              have stopped : Carried catalog (step :: rest) store
                  (.error error) (stepCommits catalog step store) :=
                .stopped failed
              rw [stepCommits, ran] at stopped
              exact stopped
          | ok written =>
              rw [run_bind_of_ok ran]
              have succeeded : stepOutcome catalog step store = .ok () := by
                rw [stepOutcome, ran]
                rfl
              have onward := Carried.stepped succeeded (ih {
                  steps := report.steps ++ [step]
                  entriesWritten := report.entriesWritten ++ written.toList }
                  (stepLeaves catalog step store))
              rw [stepLeaves, stepCommits, ran] at onward
              exact onward

namespace Carried

variable
  {catalog : Catalog}
  {steps : List Step}
  {store : Kv}
  {outcome : Except KernelError Unit}
  {committed : List Kv}

theorem functional
    (carried : Carried catalog steps store outcome committed)
    {outcome' : Except KernelError Unit} {committed' : List Kv}
    (again : Carried catalog steps store outcome' committed') :
    outcome = outcome' ∧ committed = committed' := by
  induction carried generalizing outcome' committed' with
  | done =>
      cases again
      exact ⟨rfl, rfl⟩
  | stopped failed =>
      cases again with
      | stopped failed' => exact ⟨failed.symm.trans failed', rfl⟩
      | stepped succeeded => cases failed.symm.trans succeeded
  | stepped succeeded _ ih =>
      cases again with
      | stopped failed => cases succeeded.symm.trans failed
      | stepped _ onward =>
          obtain ⟨sameOutcome, same⟩ := ih onward
          exact ⟨sameOutcome, by rw [same]⟩

theorem elsewhere
    (carried : Carried catalog steps store outcome committed) {key : Bytes}
    (other : ∀ step ∈ steps, ∀ id, step.index = some id → ¬OfIndex id key) :
    ∀ after ∈ committed, after[key]? = store[key]? := by
  induction carried with
  | done =>
      intro after nothing
      cases nothing
  | stopped _ => exact stepCommits_elsewhere catalog _ (other _ (mem_cons_self ..))
  | @stepped step rest store outcome more _ _ ih =>
      have first := stepCommits_elsewhere catalog store (other step (mem_cons_self ..))
      intro after member
      rcases mem_append.mp member with isFirst | isLater
      · exact first after isFirst
      · rw [ih (fun step member => other step (mem_cons_of_mem _ member)) after isLater]
        exact getElem?_latest first

end Carried

/-! ## Applying a plan -/

omit [Platform] in
theorem run_recordStates
    (catalog : Catalog) (plan : MigrationPlan) (store : Kv) :
    (transact (recordStates catalog plan)).run store =
      (.ok (), [carryOut store (recordChanges catalog plan)]) := by
  refine run_transact_of_ok ?_
  have recorded : (recordStates catalog plan).run (.begin store) =
      (.ok (), (begin store).changed ((catalog.tables.filter (fun table =>
          plan.steps.any (fun step => step.touches table.id))).flatMap
          (fun table => [(metaKey table.id,
            some (encodeState (migratedState table)))]))) :=
    run_forEach_changes (fun table _ state =>
      run_put (metaKey table.id) (encodeState (migratedState table)) state) _
  rw [recorded, recordChanges, map_eq_flatMap]

variable {plan : MigrationPlan}

theorem run_apply_of_blocked
    (blocked : plan.isBlocked = true)
    (catalog : Catalog) (store : Kv) :
    (apply catalog plan).run store =
      (.error (.migrationRefused plan.whyBlocked), []) := by
  rw [apply, if_pos blocked]
  rfl

theorem run_apply_cases
    (free : plan.isBlocked = false)
    (catalog : Catalog) (store : Kv) :
    ∃ committed, (∃ error, Carried catalog plan.steps store (.error error) committed ∧
        (apply catalog plan).run store = (.error error, committed)) ∨
      (∃ report, Carried catalog plan.steps store (.ok ()) committed ∧
        (apply catalog plan).run store = (.ok report, committed ++
            [carryOut (latest store committed) (recordChanges catalog plan)])) := by
  have carried := carried_runSteps catalog plan.steps {} store
  rw [apply, if_neg (by rw [free]; decide)]
  cases ran : (runSteps catalog plan.steps {}).run store with
  | mk outcome committed =>
      rw [ran] at carried
      refine ⟨committed, ?_⟩
      cases outcome with
      | error error => exact .inl ⟨error, carried, run_bind_of_error ran⟩
      | ok report =>
          right
          refine ⟨report, carried, ?_⟩
          rw [run_bind_of_ok ran, run_bind_of_ok
            (run_recordStates catalog plan _)]
          rfl

end Migration

end SlateOrm
