import SlateOrm.MigrationSteps

namespace SlateOrm

open List Option Overlay Migrating RecordState

/-!
# Repeating an interrupted migration

A build that starts again from what some of its transactions have committed
writes their entries once more, to no effect, and goes on from there.  A drop
that starts again removes what is left.  So a migration that is stopped between
two transactions and planned and applied again ends as it would have ended.
-/

namespace Migration

/-! ## Stores that agree -/

/-- Two stores hold the same under the keys of an index. -/
def Alike (id : IndexId) (first second : Kv) : Prop :=
  ∀ key, Keys.OfIndex id key → first[key]? = second[key]?

theorem Alike.refl (id : IndexId) (store : Kv) : Alike id store store :=
  fun _ _ => rfl

variable {first second : Kv}

theorem Alike.symm
    {id : IndexId} (alike : Alike id first second) :
    Alike id second first :=
  fun key ofIndex => (alike key ofIndex).symm

theorem Alike.trans
    {id : IndexId} {first second third : Kv} (alike : Alike id first second)
    (alike' : Alike id second third) :
    Alike id first third :=
  fun key ofIndex => (alike key ofIndex).trans (alike' key ofIndex)

/-- Two stores hold the same under keys of no index. -/
def SameElsewhere (first second : Kv) : Prop :=
  ∀ key, (∀ id, ¬Keys.OfIndex id key) → first[key]? = second[key]?

theorem eq_of_alike
    (alike : ∀ id, Alike id first second)
    (same : SameElsewhere first second) :
    first = second := by
  apply Std.ExtTreeMap.ext_getElem?
  intro key
  by_cases ofSome : ∃ id, Keys.OfIndex id key
  · obtain ⟨id, ofIndex⟩ := ofSome
    exact alike id key ofIndex
  · exact same key (fun id ofIndex => ofSome ⟨id, ofIndex⟩)

theorem SameElsewhere.sameRecords
    (same : SameElsewhere first second) :
    SameRecords first second :=
  fun table => same _ (not_ofIndex_metaKey table)

theorem SameElsewhere.ofTable
    (same : SameElsewhere first second) (table : TableDef) (key : Bytes)
    (ofTable : Keys.tablePrefix table <+: key) :
    first[key]? = second[key]? :=
  same key (fun _ ofIndex => not_tablePrefix_of_ofIndex ofIndex ofTable)

theorem SameElsewhere.pairsAfter
    (same : SameElsewhere first second) (table : TableDef) :
    pairsAfter table none first = pairsAfter table none second :=
  pairsAfter_congr none (same.ofTable table)

variable [Platform]

/-! ## Builds -/

section

variable
  {table : TableDef}
  {index : IndexDef}

namespace Backfills

variable
  {pairs : List KeyValue}
  {store : Kv}
  {outcome : Except KernelError Unit}
  {committed : List Kv}

/-- A build goes one way. -/
theorem functional
    (built : Backfills table index pairs store outcome committed)
    {outcome' : Except KernelError Unit} {committed' : List Kv}
    (again : Backfills table index pairs store outcome' committed') :
    outcome = outcome' ∧ committed = committed' := by
  have whole {pairs : List KeyValue} (short : pairs.length < BACKFILL_BATCH) :
      pairs.take BACKFILL_BATCH = pairs :=
    take_of_length_le (Nat.le_of_lt short)
  induction built generalizing outcome' committed' with
  | refused failed =>
      cases again with
      | refused failed' =>
          cases failed.symm.trans failed'
          exact ⟨rfl, rfl⟩
      | finished short succeeded =>
          rw [whole short] at failed
          cases failed.symm.trans succeeded
      | resumed _ succeeded _ => cases failed.symm.trans succeeded
  | finished short succeeded =>
      cases again with
      | refused failed =>
          rw [whole short] at failed
          cases failed.symm.trans succeeded
      | finished _ succeeded' =>
          cases succeeded.symm.trans succeeded'
          exact ⟨rfl, rfl⟩
      | resumed full _ _ => omega
  | resumed full succeeded _ ih =>
      cases again with
      | refused failed => cases succeeded.symm.trans failed
      | finished short _ => omega
      | resumed _ succeeded' onward =>
          cases succeeded.symm.trans succeeded'
          obtain ⟨sameOutcome, same⟩ := ih onward
          exact ⟨sameOutcome, by rw [same]⟩

end Backfills

/-- The entries of some rows are there. -/
def Holds (table : TableDef) (index : IndexDef) (rows : List KeyedRow)
    (store : Kv) : Prop :=
  ∀ keyed ∈ rows, index.admits keyed.row = true →
    store[(backfillEntry table index keyed).key]? =
      some (backfillEntry table index keyed).value

namespace Holds

variable
  {rows : List KeyedRow}
  {store : Kv}

theorem carryOut_eq
    (holds : Holds table index rows store) :
    carryOut store (backfillChanges table index rows) = store := by
  apply Std.ExtTreeMap.ext_getElem?
  intro key
  rw [getElem?_carryOut]
  cases isLast : lastWrite key (backfillChanges table index rows) with
  | none => rfl
  | some written =>
      obtain ⟨keyed, isAdmitted, isChange⟩ := mem_map.mp (mem_of_lastWrite isLast)
      obtain ⟨member, admits⟩ := mem_filter.mp isAdmitted
      cases isChange
      exact (holds keyed member admits).symm

variable (wellFormed : table.WellFormed)

include wellFormed

theorem passes
    (holds : Holds table index rows store)
    (read : ∀ keyed ∈ rows, keyed.ReadFrom table)
    {keyed : KeyedRow}
    (member : keyed ∈ rows)
    (admits : index.admits keyed.row = true) :
    backfillCheck table index keyed (begin store).transaction = .ok () := by
  have held := holds keyed member admits
  rw [← get_begin] at held
  rw [backfillCheck_of_held wellFormed (read keyed member) (read keyed member)
    rfl held, if_pos rfl]

variable {pairs : List KeyValue}

section

variable
  (holds : Holds table index rows store)
  (read : ∀ keyed ∈ rows, keyed.ReadFrom table)

include holds read

/-- A batch that succeeds leaves the entries that were there. -/
theorem batch
    {more : List KeyedRow}
    (succeeded : batchRows table index pairs store = .ok more) :
    Holds table index rows (carryOut store (backfillChanges table index more)) := by
  obtain ⟨readMore, passesMore⟩ := batchRows_eq_ok_iff.mp succeeded
  have moreRead : ∀ keyed ∈ more, keyed.ReadFrom table := by
    intro keyed member
    obtain ⟨pair, _, readRow⟩ := (mem_of_readKeyedRows readMore).mp member
    exact readFrom_of_readKeyedRow wellFormed readRow
  have admittedRead : ∀ keyed ∈ more.filter (fun keyed =>
      index.admits keyed.row), keyed.ReadFrom table :=
    fun keyed isAdmitted => moreRead keyed (mem_filter.mp isAdmitted).1
  have checks := ((backfillRefusal_eq_none_iff wellFormed admittedRead _).mp
    passesMore).1
  intro keyed member admits
  rw [getElem?_backfilled_iff wellFormed moreRead passesMore]
  by_cases written : ∃ other ∈ more, index.admits other.row = true ∧
      (backfillEntry table index other).key = (backfillEntry table index keyed).key
  · obtain ⟨other, otherMember, otherAdmits, sameKey⟩ := written
    left
    refine ⟨other, otherMember, otherAdmits, sameKey, ?_⟩
    -- The other row was let past this row's entry, so it is the same row's.
    have held := holds keyed member admits
    rw [← sameKey, ← get_begin] at held
    have passed := checks other (mem_filter.mpr ⟨otherMember, otherAdmits⟩)
    rw [backfillCheck_of_held wellFormed (moreRead other otherMember)
      (read keyed member) sameKey.symm held] at passed
    split at passed
    · next samePrimaryKey =>
        have sameChange := backfillEntry_eq wellFormed
          (moreRead other otherMember) (read keyed member) sameKey.symm
          samePrimaryKey
        exact (some.inj (congrArg Prod.snd sameChange)).symm
    · cases passed
  · right
    refine ⟨holds keyed member admits, ?_⟩
    intro other otherMember otherAdmits sameKey
    exact written ⟨other, otherMember, otherAdmits, sameKey⟩

theorem build
    {outcome : Except KernelError Unit} {committed : List Kv}
    (built : Backfills table index pairs store outcome committed) :
    ∀ after ∈ committed, Holds table index rows after := by
  induction built with
  | refused =>
      intro after nothing
      cases nothing
  | finished _ succeeded =>
      intro after member
      rw [mem_singleton.mp member]
      exact holds.batch wellFormed read succeeded
  | resumed _ succeeded _ ih =>
      have holdsNext := holds.batch wellFormed read succeeded
      intro after member
      rcases mem_cons.mp member with rfl | member
      · exact holdsNext
      · exact ih holdsNext after member

end

end Holds

variable {pairs : List KeyValue} {rows : List KeyedRow} {store : Kv}
  {outcome : Except KernelError Unit}

section

variable
  (wellFormed : table.WellFormed)

include wellFormed

theorem readFrom_of_batchRows
    (succeeded : batchRows table index pairs store = .ok rows) :
    ∀ keyed ∈ rows, keyed.ReadFrom table := by
  intro keyed member
  obtain ⟨pair, _, readRow⟩ :=
    (mem_of_readKeyedRows (batchRows_eq_ok_iff.mp succeeded).1).mp member
  exact readFrom_of_readKeyedRow wellFormed readRow

theorem holds_of_batchRows
    (succeeded : batchRows table index pairs store = .ok rows) :
    Holds table index rows (carryOut store (backfillChanges table index rows)) := by
  intro keyed member admits
  exact getElem?_backfilled wellFormed (readFrom_of_batchRows wellFormed
    succeeded) (batchRows_eq_ok_iff.mp succeeded).2 member admits

theorem batchRows_of_holds
    {store again : Kv}
    (succeeded : batchRows table index pairs store = .ok rows)
    (holds : Holds table index rows again) :
    batchRows table index pairs again = .ok rows := by
  have read := readFrom_of_batchRows wellFormed succeeded
  obtain ⟨readRows, passes⟩ := batchRows_eq_ok_iff.mp succeeded
  have admittedRead : ∀ keyed ∈ rows.filter (fun keyed =>
      index.admits keyed.row), keyed.ReadFrom table :=
    fun keyed isAdmitted => read keyed (mem_filter.mp isAdmitted).1
  refine batchRows_eq_ok_iff.mpr ⟨readRows, ?_⟩
  rw [backfillRefusal_eq_none_iff wellFormed admittedRead] at passes ⊢
  refine ⟨fun keyed isAdmitted => ?_, passes.2⟩
  obtain ⟨member, admits⟩ := mem_filter.mp isAdmitted
  exact holds.passes wellFormed read member admits

/--
A build that starts again from what some of its transactions have committed
ends as it would have ended.
-/
theorem Backfills.again
    {committed : List Kv}
    (built : Backfills table index pairs store outcome committed) {between : Kv}
    (member : between ∈ store :: committed) :
    ∃ more, Backfills table index pairs between outcome more ∧
      latest between more = latest store committed := by
  induction built with
  | refused failed =>
      rw [mem_singleton.mp member]
      exact ⟨[], .refused failed, rfl⟩
  | @finished pairs store rows short succeeded =>
      rcases mem_cons.mp member with rfl | member
      · exact ⟨_, .finished short succeeded, rfl⟩
      · rw [mem_singleton.mp member]
        have holds := holds_of_batchRows wellFormed succeeded
        refine ⟨_, .finished short (batchRows_of_holds wellFormed succeeded holds), ?_⟩
        exact holds.carryOut_eq
  | @resumed pairs store rows outcome committed full succeeded rest ih =>
      rcases mem_cons.mp member with rfl | member
      · exact ⟨_, .resumed full succeeded rest, rfl⟩
      · have holdsNext := holds_of_batchRows wellFormed succeeded
        have read := readFrom_of_batchRows wellFormed succeeded
        have holds : Holds table index rows between := by
          rcases mem_cons.mp member with rfl | later
          · exact holdsNext
          · exact holdsNext.build wellFormed read rest between later
        obtain ⟨more, onward, isLatest⟩ := ih member
        refine ⟨between :: more, ?_, ?_⟩
        · have repeated := Backfills.resumed full
            (batchRows_of_holds wellFormed succeeded holds)
            (holds.carryOut_eq.symm ▸ onward)
          rw [holds.carryOut_eq] at repeated
          exact repeated
        · rw [latest_cons, latest_cons]
          exact isLatest

end

/-! ## Builds over what others agree on -/

theorem batchRows_congr
    {first second : Kv} (alike : Alike index.id first second)
    (pairs : List KeyValue) :
    batchRows table index pairs first = batchRows table index pairs second := by
  have sameRefusal (rows : List KeyedRow) :
      backfillRefusal table index (.begin first) rows =
        backfillRefusal table index (.begin second) rows := by
    refine backfillRefusal_congr_of_ofIndex (fun key ofIndex => ?_) rows
    rw [get_begin, get_begin]
    exact alike key ofIndex
  rw [batchRows, batchRows]
  simp only [sameRefusal]

theorem Backfills.congr
    {first second : Kv} {committed : List Kv}
    (built : Backfills table index pairs first outcome committed)
    (alike : Alike index.id first second) :
    ∃ more, Backfills table index pairs second outcome more ∧
      Alike index.id (latest first committed) (latest second more) := by
  have alikeAfter {first second : Kv} (alike : Alike index.id first second)
      (changes : List Change) :
      Alike index.id (carryOut first changes) (carryOut second changes) := by
    intro key ofIndex
    rw [getElem?_carryOut, getElem?_carryOut, alike key ofIndex]
  induction built generalizing second with
  | refused failed =>
      rw [batchRows_congr alike] at failed
      exact ⟨[], .refused failed, alike⟩
  | finished short succeeded =>
      rw [batchRows_congr alike] at succeeded
      exact ⟨_, .finished short succeeded, alikeAfter alike _⟩
  | @resumed pairs store rows outcome committed full succeeded _ ih =>
      rw [batchRows_congr alike] at succeeded
      obtain ⟨more, onward, alikeLatest⟩ := ih
        (alikeAfter alike (backfillChanges table index rows))
      refine ⟨_, .resumed full succeeded onward, ?_⟩
      rw [latest_cons, latest_cons]
      exact alikeLatest

end

/-! ## Steps -/

variable {after : Kv} {id : IndexId} {step : Step}
  {outcome : Except KernelError Unit} {catalog : Catalog} {committed : List Kv}
  {store : Kv} {first second : Kv} {steps : List Step} {between : Kv}

theorem sameElsewhere_stepCommits
    (catalog : Catalog) (step : Step) (store : Kv)
    (member : after ∈ store :: stepCommits catalog step store) :
    SameElsewhere store after := by
  intro key other
  rcases mem_cons.mp member with rfl | member
  · rfl
  · exact (stepCommits_elsewhere catalog store (fun id _ => other id) after member).symm

theorem alike_stepCommits
    (catalog : Catalog) (store : Kv)
    (unrelated : step.index ≠ some id)
    (member : after ∈ store :: stepCommits catalog step store) :
    Alike id store after := by
  intro key ofIndex
  rcases mem_cons.mp member with rfl | member
  · rfl
  · refine (stepCommits_elsewhere catalog store ?_ after member).symm
    intro id' isIndex ofIndex'
    rw [isIndex, ofIndex'.unique ofIndex] at unrelated
    exact unrelated rfl

theorem stepLeaves_mem
    (catalog : Catalog) (step : Step) (store : Kv) :
    stepLeaves catalog step store ∈ store :: stepCommits catalog step store :=
  latest_mem _ _

theorem stepRun_of_backfills
    {tableId : TableId} {indexId : IndexId} {table : TableDef}
    {index : IndexDef}
    (known : resolve catalog tableId indexId = .ok (table, index))
    (name : String)
    (built : Backfills table index (pairsAfter table none store) store outcome
      committed) :
    stepOutcome catalog (.buildIndex tableId indexId name) store = outcome ∧
      stepCommits catalog (.buildIndex tableId indexId name) store =
        committed := by
  have ran := stepRun catalog (.buildIndex tableId indexId name) store
  generalize stepOutcome catalog (.buildIndex tableId indexId name) store =
    outcome' at ran ⊢
  generalize stepCommits catalog (.buildIndex tableId indexId name) store =
    committed' at ran ⊢
  cases ran with
  | unresolved unknown =>
      rw [known] at unknown
      cases unknown
  | build known' built' =>
      rw [known] at known'
      cases known'
      exact built'.functional built
  | nothing idle => cases idle

theorem stepRun_drop
    (catalog : Catalog) (table : TableId) (id : IndexId) (store : Kv) :
    stepOutcome catalog (.dropIndex table id) store = .ok () ∧
      DropRun id store (stepCommits catalog (.dropIndex table id) store) := by
  have ran := stepRun catalog (.dropIndex table id) store
  generalize stepOutcome catalog (.dropIndex table id) store = outcome at ran ⊢
  generalize stepCommits catalog (.dropIndex table id) store = committed at ran ⊢
  cases ran with
  | drop dropped => exact ⟨rfl, dropped⟩
  | nothing idle => cases idle

theorem alike_of_drop
    (catalog : Catalog) (table : TableId) (id : IndexId) (first second : Kv) :
    Alike id (stepLeaves catalog (.dropIndex table id) first)
      (stepLeaves catalog (.dropIndex table id) second) := by
  intro key ofIndex
  rw [stepLeaves, stepLeaves, (stepRun_drop catalog table id first).2.emptied
    key ofIndex, (stepRun_drop catalog table id second).2.emptied key ofIndex]

theorem stepOutcome_of_idle
    (idle : step.index = none)
    (store : Kv) :
    stepOutcome catalog step store = .ok () := by
  cases step with
  | buildIndex tableId indexId name
  | dropIndex tableId indexId => cases idle
  | _ => rfl

theorem stepRun_unresolved
    {tableId : TableId} {indexId : IndexId} {error : KernelError}
    (unknown : resolve catalog tableId indexId = .error error)
    (name : String) (store : Kv) :
    stepOutcome catalog (.buildIndex tableId indexId name) store = .error error ∧
      stepCommits catalog (.buildIndex tableId indexId name) store = [] := by
  have ran := stepRun catalog (.buildIndex tableId indexId name) store
  generalize stepOutcome catalog (.buildIndex tableId indexId name) store =
    outcome at ran ⊢
  generalize stepCommits catalog (.buildIndex tableId indexId name) store =
    committed at ran ⊢
  cases ran with
  | unresolved unknown' =>
      rw [unknown] at unknown'
      cases unknown'
      exact ⟨rfl, rfl⟩
  | build known _ =>
      rw [unknown] at known
      cases known
  | nothing idle => cases idle

/-- What is under the keys of its index decides how a step goes. -/
theorem step_alike
    (catalog : Catalog)
    (isIndex : step.index = some id)
    (alike : Alike id first second) (same : SameElsewhere first second) :
    stepOutcome catalog step first = stepOutcome catalog step second ∧
      Alike id (stepLeaves catalog step first) (stepLeaves catalog step second) := by
  cases step with
  | buildIndex tableId indexId name =>
      obtain rfl : indexId = id := some.inj isIndex
      cases known : resolve catalog tableId indexId with
      | error error =>
          obtain ⟨outcome, commits⟩ := stepRun_unresolved known name first
          obtain ⟨outcome', commits'⟩ := stepRun_unresolved known name second
          rw [outcome, outcome', stepLeaves, stepLeaves, commits, commits']
          exact ⟨rfl, alike⟩
      | ok found =>
          obtain ⟨table, index⟩ := found
          obtain ⟨_, _, _, rfl⟩ := declared_of_resolve known
          have built := backfills_build table index first
          obtain ⟨more, built', alikeLatest⟩ := built.congr alike
          rw [same.pairsAfter table] at built'
          obtain ⟨outcome, commits⟩ := stepRun_of_backfills known name built
          obtain ⟨outcome', commits'⟩ := stepRun_of_backfills known name built'
          rw [outcome, outcome', stepLeaves, stepLeaves, commits, commits']
          exact ⟨rfl, alikeLatest⟩
  | dropIndex tableId indexId =>
      obtain rfl : indexId = id := some.inj isIndex
      exact ⟨(stepRun_drop catalog tableId indexId first).1.trans
        (stepRun_drop catalog tableId indexId second).1.symm, alike_of_drop _ _ _ _ _⟩
  | _ => cases isIndex

/-! ## Starting again -/

/--
A store is as good as another to carry out steps from, where one index is
concerned: the steps on it end alike, and what they leave of it is the same
when the steps from the other store are through.
-/
def Resumable (catalog : Catalog) : List Step → IndexId → Kv → Kv → Prop
  | [], id, first, second => Alike id first second
  | step :: rest, id, first, second =>
      (step.index = some id →
        stepOutcome catalog step first = stepOutcome catalog step second) ∧
      if stepOutcome catalog step first = .ok () then
        Resumable catalog rest id (stepLeaves catalog step first)
          (stepLeaves catalog step second)
      else
        Alike id (stepLeaves catalog step first) (stepLeaves catalog step second)

theorem alike_stepLeaves
    (catalog : Catalog) (step : Step) (alike : Alike id first second)
    (same : SameElsewhere first second) :
    Alike id (stepLeaves catalog step first) (stepLeaves catalog step second) := by
  by_cases isIndex : step.index = some id
  · exact (step_alike catalog isIndex alike same).2
  · exact ((alike_stepCommits catalog first isIndex (stepLeaves_mem catalog step
      first)).symm.trans alike).trans (alike_stepCommits catalog second isIndex
      (stepLeaves_mem catalog step second))

theorem sameElsewhere_stepLeaves
    (catalog : Catalog) (step : Step) (same : SameElsewhere first second) :
    SameElsewhere (stepLeaves catalog step first) (stepLeaves catalog step second) := by
  intro key other
  rw [← sameElsewhere_stepCommits catalog step first
    (stepLeaves_mem catalog step first) key other, ← sameElsewhere_stepCommits
    catalog step second (stepLeaves_mem catalog step second) key other]
  exact same key other

theorem Resumable.congr
    {first second third : Kv}
    (resumable : Resumable catalog steps id first second)
    (alike : Alike id second third) (same : SameElsewhere second third) :
    Resumable catalog steps id first third := by
  induction steps generalizing first second third with
  | nil => exact Alike.trans resumable alike
  | cons step rest ih =>
      obtain ⟨outcomes, onward⟩ := resumable
      have alikeLeaves := alike_stepLeaves catalog step alike same
      refine ⟨?_, ?_⟩
      · intro isIndex
        exact (outcomes isIndex).trans (step_alike catalog isIndex alike same).1
      · split at onward
        · next succeeded =>
            rw [if_pos succeeded]
            exact ih onward alikeLeaves (sameElsewhere_stepLeaves catalog step same)
        · next failed =>
            rw [if_neg failed]
            exact onward.trans alikeLeaves

theorem Resumable.refl
    (catalog : Catalog) (steps : List Step) (id : IndexId) (store : Kv) :
    Resumable catalog steps id store store := by
  induction steps generalizing store with
  | nil => exact Alike.refl id store
  | cons step rest ih =>
      refine ⟨fun _ => rfl, ?_⟩
      split
      · exact ih _
      · exact Alike.refl id _

theorem resumable_of_drop
    {table : TableId} (rest : List Step) (same : SameElsewhere first second) :
    Resumable catalog (.dropIndex table id :: rest) id first second := by
  have succeeded := (stepRun_drop catalog table id first).1
  refine ⟨fun _ => succeeded.trans (stepRun_drop catalog table id second).1.symm, ?_⟩
  rw [if_pos succeeded]
  exact (Resumable.refl catalog rest id _).congr (alike_of_drop _ _ _ _ _)
    (sameElsewhere_stepLeaves catalog _ same)

/-- Steps from a store that is as good to resume from end alike. -/
theorem Carried.resumed
    {catalog : Catalog} {steps : List Step} {first second : Kv}
    {outcome : Except KernelError Unit} {committed : List Kv}
    (carried : Carried catalog steps first outcome committed)
    (same : SameElsewhere first second)
    (resumable : ∀ id, Resumable catalog steps id first second) :
    ∃ more, Carried catalog steps second outcome more ∧
      latest second more = latest first committed := by
  have sameOutcome {step : Step} {rest : List Step} {first second : Kv}
      (resumable : ∀ id, Resumable catalog (step :: rest) id first second) :
      stepOutcome catalog step second = stepOutcome catalog step first := by
    cases isIndex : step.index with
    | some id => exact ((resumable id).1 isIndex).symm
    | none => rw [stepOutcome_of_idle isIndex, stepOutcome_of_idle isIndex]
  induction carried generalizing second with
  | done => exact ⟨[], .done, (eq_of_alike resumable same).symm⟩
  | @stopped step rest store error failed =>
      have failedToo := (sameOutcome resumable).trans failed
      refine ⟨_, .stopped failedToo, ?_⟩
      refine (eq_of_alike (fun id => ?_)
        (sameElsewhere_stepLeaves catalog step same)).symm
      have onward := (resumable id).2
      rw [failed, if_neg (by simp)] at onward
      exact onward
  | @stepped step rest store outcome more succeeded _ ih =>
      have succeededToo := (sameOutcome resumable).trans succeeded
      have onward : ∀ id, Resumable catalog rest id
          (stepLeaves catalog step store) (stepLeaves catalog step second) := by
        intro id
        have onward := (resumable id).2
        rw [if_pos succeeded] at onward
        exact onward
      obtain ⟨further, carriedToo, isLatest⟩ := ih
        (sameElsewhere_stepLeaves catalog step same) onward
      refine ⟨_, .stepped succeededToo carriedToo, ?_⟩
      rw [latest_append, latest_append]
      exact isLatest

/-- What is under the keys of an index was there before, or is not there. -/
def Shrunk (id : IndexId) (first second : Kv) : Prop :=
  ∀ key, Keys.OfIndex id key → second[key]? = none ∨ second[key]? = first[key]?

theorem shrunk_stepCommits
    (catalog : Catalog)
    (notBuilt : step.builds ≠ some id)
    (store : Kv)
    (member : after ∈ store :: stepCommits catalog step store) :
    Shrunk id store after := by
  intro key ofIndex
  by_cases isIndex : step.index = some id
  · cases step with
    | buildIndex tableId indexId name => exact absurd isIndex notBuilt
    | dropIndex tableId indexId =>
        obtain rfl : indexId = id := some.inj isIndex
        rcases mem_cons.mp member with rfl | member
        · exact .inr rfl
        · exact ((stepRun_drop catalog tableId indexId store).2.dropping after
            member).shrinks key ofIndex
    | _ => cases isIndex
  · exact .inr (alike_stepCommits catalog store isIndex member key ofIndex).symm

section

variable
  (carried : Carried catalog steps store outcome committed)
  (notBuilt : ∀ step ∈ steps, step.builds ≠ some id)

include carried notBuilt

theorem Carried.shrunk
    (member : between ∈ store :: committed) :
    Shrunk id store between := by
  induction carried with
  | done =>
      rw [mem_singleton.mp member]
      exact fun _ _ => .inr rfl
  | stopped => exact shrunk_stepCommits catalog (notBuilt _ (mem_cons_self ..)) _ member
  | @stepped step rest store outcome more _ _ ih =>
      have first {after : Kv}
          (member : after ∈ store :: stepCommits catalog step store) :
          Shrunk id store after :=
        shrunk_stepCommits catalog (notBuilt step (mem_cons_self ..)) store member
      rw [← cons_append] at member
      rcases mem_append.mp member with isFirst | isLater
      · exact first isFirst
      · intro key ofIndex
        have later := ih (fun step member => notBuilt step (mem_cons_of_mem _ member))
          (mem_cons_of_mem _ isLater) key ofIndex
        rcases later with gone | same
        · exact .inl gone
        · rw [same]
          exact first (stepLeaves_mem catalog step store) key ofIndex

/--
Steps that build other indexes can be resumed from whatever agrees on an index
with where they started, if the store they had come to does: they have come to
a drop of the index otherwise.
-/
theorem Carried.resumable_of_not_built
    {between second : Kv}
    (member : between ∈ store :: committed)
    (same : SameElsewhere store second)
    (alike : Alike id store between → Alike id store second) :
    Resumable catalog steps id store second := by
  induction carried generalizing second with
  | done =>
      rw [mem_singleton.mp member] at alike
      exact alike (Alike.refl id _)
  | @stopped step rest store error failed =>
      have unrelated : step.index ≠ some id := by
        intro isIndex
        cases step with
        | buildIndex tableId indexId name => exact notBuilt _ (mem_cons_self ..) isIndex
        | dropIndex tableId indexId =>
            rw [(stepRun_drop catalog tableId indexId store).1] at failed
            cases failed
        | _ => cases isIndex
      have alikeSecond := alike (alike_stepCommits catalog store unrelated member)
      exact (Resumable.refl catalog _ id store).congr alikeSecond same
  | @stepped step rest store outcome more succeeded _ ih =>
      by_cases isIndex : step.index = some id
      · cases step with
        | buildIndex tableId indexId name =>
            exact absurd isIndex (notBuilt _ (mem_cons_self ..))
        | dropIndex tableId indexId =>
            obtain rfl : indexId = id := some.inj isIndex
            exact resumable_of_drop rest same
        | _ => cases isIndex
      · have leaves := alike_stepCommits catalog store isIndex
          (stepLeaves_mem catalog step store)
        refine ⟨fun isIndex' => absurd isIndex' isIndex, ?_⟩
        rw [if_pos succeeded]
        rw [← cons_append] at member
        rcases mem_append.mp member with isFirst | isLater
        · have alikeSecond := alike (alike_stepCommits catalog store isIndex isFirst)
          exact (Resumable.refl catalog rest id _).congr (alike_stepLeaves catalog step
            alikeSecond same) (sameElsewhere_stepLeaves catalog step same)
        · refine ih (fun step member => notBuilt step (mem_cons_of_mem _ member))
            (mem_cons_of_mem _ isLater) (sameElsewhere_stepLeaves catalog step same) ?_
          intro alikeBetween
          exact alike_stepLeaves catalog step (alike (leaves.trans alikeBetween)) same

end

/--
A build that succeeded succeeds again from what is left of its index, and
changes nothing if all of it is.
-/
theorem Backfills.again_of_shrunk
    {table : TableDef}
    (wellFormed : table.WellFormed)
    {index : IndexDef} {pairs : List KeyValue}
    (built : Backfills table index pairs store (.ok ()) committed) {second : Kv}
    (shrunk : Shrunk index.id (latest store committed) second) {more : List Kv}
    (again : Backfills table index pairs second outcome more) :
    outcome = .ok () ∧ (Alike index.id (latest store committed) second →
        Alike index.id (latest store committed) (latest second more)) := by
  obtain ⟨rows, read, passes, isLatest⟩ := built.written
  have rowsRead : ∀ keyed ∈ rows, keyed.ReadFrom table := by
    intro keyed member
    obtain ⟨pair, _, readRow⟩ := (mem_of_readKeyedRows read).mp member
    exact readFrom_of_readKeyedRow wellFormed readRow
  have admittedRead : ∀ keyed ∈ rows.filter (fun keyed =>
      index.admits keyed.row), keyed.ReadFrom table :=
    fun keyed isAdmitted => rowsRead keyed (mem_filter.mp isAdmitted).1
  have holds : Holds table index rows (latest store committed) := by
    rw [isLatest]
    intro keyed member admits
    exact getElem?_backfilled wellFormed rowsRead passes member admits
  have passesAgain : backfillRefusal table index (.begin second)
      (rows.filter (fun keyed => index.admits keyed.row)) = none := by
    rw [backfillRefusal_eq_none_iff wellFormed admittedRead] at passes ⊢
    refine ⟨fun keyed isAdmitted => ?_, passes.2⟩
    obtain ⟨member, admits⟩ := mem_filter.mp isAdmitted
    rcases shrunk (backfillEntry table index keyed).key
      (Keys.indexEntry_ofIndex ..) with gone | kept
    · rw [← get_begin] at gone
      rw [backfillCheck, RecordTransaction.checkUnique, gone]
      exact ite_self _
    · rw [holds keyed member admits, ← get_begin] at kept
      rw [backfillCheck_of_held wellFormed (rowsRead keyed member)
        (rowsRead keyed member) rfl kept, if_pos rfl]
  obtain rfl := outcome_of_passes read passesAgain again
  refine ⟨rfl, fun alike key ofIndex => ?_⟩
  obtain ⟨rows', read', _, isLatest'⟩ := again.written
  obtain rfl : rows = rows' := Except.ok.inj (read.symm.trans read')
  have unchanged := congrArg (fun after : Kv => after[key]?) holds.carryOut_eq
  rw [isLatest', getElem?_carryOut, ← alike key ofIndex, ← getElem?_carryOut]
  exact unchanged.symm

/-- A step that starts again from what it has committed ends as it would. -/
theorem step_again
    (wellFormed : ∀ table ∈ catalog.tables, table.WellFormed)
    {store between : Kv}
    (member : between ∈ store :: stepCommits catalog step store)
    (id : IndexId) :
    (step.index = some id →
      stepOutcome catalog step store = stepOutcome catalog step between) ∧
    Alike id (stepLeaves catalog step store) (stepLeaves catalog step between) := by
  have same := sameElsewhere_stepCommits catalog step store member
  by_cases isIndex : step.index = some id
  · cases step with
    | buildIndex tableId indexId name =>
        cases known : resolve catalog tableId indexId with
        | error error =>
            obtain ⟨outcome, commits⟩ := stepRun_unresolved known name store
            rw [commits] at member
            rw [mem_singleton.mp member]
            exact ⟨fun _ => rfl, Alike.refl id _⟩
        | ok found =>
            obtain ⟨table, index⟩ := found
            obtain ⟨inCatalog, _, _, rfl⟩ := declared_of_resolve known
            have built := backfills_build table index store
            obtain ⟨outcome, commits⟩ := stepRun_of_backfills known name built
            rw [commits] at member
            obtain ⟨more, again, isLatest⟩ :=
              built.again (wellFormed table inCatalog) member
            rw [same.pairsAfter table] at again
            obtain ⟨outcome', commits'⟩ := stepRun_of_backfills known name again
            rw [outcome, outcome', stepLeaves, stepLeaves, commits, commits', isLatest]
            exact ⟨fun _ => rfl, Alike.refl id _⟩
    | dropIndex tableId indexId =>
        obtain rfl : indexId = id := some.inj isIndex
        exact ⟨fun _ => (stepRun_drop catalog tableId indexId store).1.trans
          (stepRun_drop catalog tableId indexId between).1.symm,
          alike_of_drop _ _ _ _ _⟩
    | _ => cases isIndex
  · exact ⟨fun isIndex' => absurd isIndex' isIndex, alike_stepLeaves catalog
      step (alike_stepCommits catalog store isIndex member) same⟩

theorem resumable_of_mem_stepCommits
    (wellFormed : ∀ table ∈ catalog.tables, table.WellFormed)
    (rest : List Step) {store between : Kv}
    (member : between ∈ store :: stepCommits catalog step store)
    (id : IndexId) :
    Resumable catalog (step :: rest) id store between := by
  obtain ⟨outcomes, alike⟩ := step_again wellFormed member id
  refine ⟨outcomes, ?_⟩
  split
  · exact (Resumable.refl catalog rest id _).congr alike (sameElsewhere_stepLeaves
      catalog step (sameElsewhere_stepCommits catalog step store member))
  · exact alike

theorem Carried.sameElsewhere
    (carried : Carried catalog steps store outcome committed)
    (member : between ∈ store :: committed) :
    SameElsewhere store between := by
  intro key other
  rcases mem_cons.mp member with rfl | member
  · rfl
  · exact (carried.elsewhere (fun _ _ id _ => other id) between member).symm

/-- Steps can be resumed from whatever some of their transactions committed. -/
theorem Carried.resumable
    (wellFormed : ∀ table ∈ catalog.tables, table.WellFormed)
    (builtOnce : (steps.filterMap Step.builds).Nodup)
    (carried : Carried catalog steps store outcome committed)
    (member : between ∈ store :: committed)
    (id : IndexId) :
    Resumable catalog steps id store between := by
  induction carried with
  | done =>
      rw [mem_singleton.mp member]
      exact Resumable.refl catalog [] id _
  | stopped => exact resumable_of_mem_stepCommits wellFormed _ member id
  | @stepped step rest store outcome more succeeded onward ih =>
      rw [← cons_append] at member
      rcases mem_append.mp member with isFirst | isLater
      · exact resumable_of_mem_stepCommits wellFormed rest isFirst id
      have later := mem_cons_of_mem (stepLeaves catalog step store) isLater
      have restOnce : (rest.filterMap Step.builds).Nodup :=
        (List.Sublist.filterMap _ (sublist_cons_self step rest)).nodup builtOnce
      have leaves := sameElsewhere_stepCommits catalog step store
        (stepLeaves_mem catalog step store)
      have same : SameElsewhere store between := fun key other =>
        (leaves key other).trans (onward.sameElsewhere later key other)
      have sameLeaves := sameElsewhere_stepLeaves catalog step same
      by_cases isIndex : step.index = some id
      · cases step with
        | buildIndex tableId indexId name =>
            cases known : resolve catalog tableId indexId with
            | error error =>
                rw [(stepRun_unresolved known name store).1] at succeeded
                cases succeeded
            | ok found =>
                obtain ⟨table, index⟩ := found
                obtain ⟨inCatalog, _, _, rfl⟩ := declared_of_resolve known
                obtain rfl : index.id = id := some.inj isIndex
                have notBuilt : ∀ step ∈ rest, step.builds ≠ some index.id := by
                  have once : (index.id :: rest.filterMap
                      Step.builds).Nodup := builtOnce
                  intro step member builds
                  exact (nodup_cons.mp once).1
                    (mem_filterMap.mpr ⟨step, member, builds⟩)
                have built := backfills_build table index store
                obtain ⟨outcomeIs, commits⟩ := stepRun_of_backfills known name built
                rw [← outcomeIs, ← commits, succeeded] at built
                have again := backfills_build table index between
                obtain ⟨outcomeIs', commits'⟩ := stepRun_of_backfills known name again
                rw [← same.pairsAfter table, ← outcomeIs', ← commits'] at again
                obtain ⟨succeeded', alike⟩ := built.again_of_shrunk
                  (wellFormed table inCatalog) (onward.shrunk notBuilt later) again
                refine ⟨fun _ => succeeded.trans succeeded'.symm, ?_⟩
                rw [if_pos succeeded]
                exact onward.resumable_of_not_built notBuilt later sameLeaves alike
        | dropIndex tableId indexId =>
            obtain rfl : indexId = id := some.inj isIndex
            exact resumable_of_drop rest same
        | _ => cases isIndex
      · refine ⟨fun isIndex' => absurd isIndex' isIndex, ?_⟩
        rw [if_pos succeeded]
        exact (ih restOnce later).congr (alike_stepCommits catalog between isIndex
          (stepLeaves_mem catalog step between)) (sameElsewhere_stepCommits
          catalog step between (stepLeaves_mem catalog step between))

/-! ## Migrations -/

/-- Plan and apply, as a sole writer or beside others. -/
def migrateAs (sole : Bool) (catalog : Catalog) : Migrating Report :=
  fun store => (apply catalog ((plan store catalog).forWriter sole)).run store

/-- What is committed when a migration is stopped after some transactions. -/
def stoppedAfter (sole : Bool) (catalog : Catalog) (store : Kv) (count : Nat) : Kv :=
  Migrating.latest store (((migrateAs sole catalog).run store).2.take count)

/-- A migration may be stopped anywhere and repeated. -/
structure Repeatable (sole : Bool) (catalog : Catalog) (store : Kv) :
    Prop where
  /-- Repeating it leaves what it would have left. -/
  leaves : ∀ count, Migrating.latest (stoppedAfter sole catalog store count)
        ((migrateAs sole catalog).run (stoppedAfter sole catalog store count)).2 =
      Migrating.latest store ((migrateAs sole catalog).run store).2
  /-- Repeating it ends as it would have ended. -/
  ends : ∀ count, ((migrateAs sole catalog).run
        (stoppedAfter sole catalog store count)).1.map (fun _ => ()) =
      ((migrateAs sole catalog).run store).1.map (fun _ => ())
  /-- Nothing is recorded until it is complete. -/
  records : ∀ count, (((migrateAs sole catalog).run store).1.isOk = true →
      count < ((migrateAs sole catalog).run store).2.length) →
    SameRecords store (stoppedAfter sole catalog store count)

theorem run_apply_again
    (wellFormed : catalog.WellFormed)
    {plan : MigrationPlan}
    (free : plan.isBlocked = false)
    (builtOnce : (plan.steps.filterMap Step.builds).Nodup) {store between : Kv}
    (carried : Carried catalog plan.steps store outcome committed)
    (member : between ∈ store :: committed) :
    ((apply catalog plan).run between).1.map (fun _ => ()) =
        ((apply catalog plan).run store).1.map (fun _ => ()) ∧
      latest between ((apply catalog plan).run between).2 =
        latest store ((apply catalog plan).run store).2 := by
  obtain ⟨more, again, sameLatest⟩ := carried.resumed (carried.sameElsewhere member)
      (carried.resumable wellFormed.tables builtOnce member)
  obtain ⟨committed', ran⟩ := run_apply_cases free catalog store
  obtain ⟨more', ranAgain⟩ := run_apply_cases free catalog between
  rcases ran with ⟨error, carried', ran⟩ | ⟨report, carried', ran⟩
  · obtain ⟨rfl, rfl⟩ := carried.functional carried'
    rcases ranAgain with ⟨error', again', ranAgain⟩ | ⟨report', again', _⟩
    · obtain ⟨sameError, rfl⟩ := again.functional again'
      cases sameError
      rw [ran, ranAgain]
      exact ⟨rfl, sameLatest⟩
    · cases (again.functional again').1
  · obtain ⟨rfl, rfl⟩ := carried.functional carried'
    rcases ranAgain with ⟨error', again', _⟩ | ⟨report', again', ranAgain⟩
    · cases (again.functional again').1
    · obtain ⟨_, rfl⟩ := again.functional again'
      rw [ran, ranAgain, latest_append, latest_append, sameLatest]
      exact ⟨rfl, rfl⟩

/-- A migration that is complete changes nothing when it is repeated. -/
theorem run_migrateAs_of_complete
    (wellFormed : catalog.WellFormed)
    (addressable : ∀ table ∈ catalog.tables, table.columns.length < 2 ^ 64)
    {sole : Bool} {store between : Kv}
    (free : ((plan store catalog).forWriter sole).isBlocked = false)
    (same : SameRecords store between) :
    let after := carryOut between
      (recordChanges catalog ((plan store catalog).forWriter sole))
    ((migrateAs sole catalog).run after).1.map (fun _ => ()) = .ok () ∧
      latest after ((migrateAs sole catalog).run after).2 =
        after := by
  intro after
  have each := fun table => planTable_of_recorded wellFormed addressable same sole table
  have noSteps : (plan after catalog).steps = [] := by
    rw [plan, steps_planOf, flatMap_eq_nil_iff]
    exact fun table inCatalog => (each table inCatalog).1
  have fewer : (plan after catalog).refusals ⊆ (plan store catalog).refusals := by
    rw [plan, plan, refusals_planOf, refusals_planOf]
    intro refusal member
    obtain ⟨table, inCatalog, isRefusal⟩ := mem_flatMap.mp member
    exact mem_flatMap.mpr ⟨table, inCatalog, (each table inCatalog).2 isRefusal⟩
  have freeAgain := MigrationPlan.isBlocked_forWriter_of_subset fewer free
  have isRun : (migrateAs sole catalog).run after =
      (apply catalog ((plan after catalog).forWriter sole)).run after :=
    rfl
  have nothing : recordChanges catalog ((plan after catalog).forWriter sole) = [] := by
    rw [recordChanges, MigrationPlan.steps_forWriter, noSteps]
    simp
  rw [isRun]
  obtain ⟨committed, ran⟩ := run_apply_cases freeAgain catalog after
  rw [MigrationPlan.steps_forWriter, noSteps, nothing] at ran
  rcases ran with ⟨error, carried, _⟩ | ⟨report, carried, ran⟩
  · cases carried
  · cases carried
    rw [ran]
    exact ⟨rfl, carryOut_nil after⟩

/-- A migration that is stopped after some transactions may be repeated. -/
theorem migrateAs_stoppedAfter
    (wellFormed : catalog.WellFormed)
    (distinct : (catalog.tables.map TableDef.id).Nodup)
    (addressable : ∀ table ∈ catalog.tables, table.columns.length < 2 ^ 64)
    (sole : Bool) (store : Kv) (count : Nat) :
    let first := (migrateAs sole catalog).run store
    let between := stoppedAfter sole catalog store count
    let again := (migrateAs sole catalog).run between
    latest between again.2 = latest store first.2 ∧
      again.1.map (fun _ => ()) = first.1.map (fun _ => ()) ∧
      ((first.1.isOk = true → count < first.2.length) → SameRecords store between) := by
  intro first between again
  have isFirst : first =
      (apply catalog ((plan store catalog).forWriter sole)).run store := rfl
  have isAgain : again =
      (apply catalog ((plan between catalog).forWriter sole)).run between :=
    rfl
  have isBetween : between = latest store (first.2.take count) := rfl
  cases blocked : ((plan store catalog).forWriter sole).isBlocked with
  | true =>
      -- Nothing was committed, so the same is refused again.
      rw [run_apply_of_blocked blocked] at isFirst
      have unchanged : between = store := by
        rw [isBetween, isFirst, take_nil]
        rfl
      have sameRun : again = first := congrArg (migrateAs sole catalog).run unchanged
      rw [sameRun, unchanged]
      exact ⟨rfl, rfl, fun _ _ => rfl⟩
  | false =>
      have builtOnce : (((plan store catalog).forWriter
          sole).steps.filterMap Step.builds).Nodup := by
        rw [MigrationPlan.steps_forWriter]
        exact nodup_builds_planOf wellFormed distinct _
      obtain ⟨committed, ran⟩ := run_apply_cases blocked catalog store
      have unfinished {outcome : Except KernelError Unit}
          (carried : Carried catalog ((plan store catalog).forWriter
            sole).steps store outcome committed)
          (member : between ∈ store :: committed) :
          latest between again.2 = latest store first.2 ∧
            again.1.map (fun _ => ()) = first.1.map (fun _ => ()) ∧
            SameRecords store between := by
        have same := (carried.sameElsewhere member).sameRecords
        rw [isAgain, ← plan_congr same catalog, isFirst]
        obtain ⟨outcomes, leaves⟩ :=
          run_apply_again wellFormed blocked builtOnce carried member
        exact ⟨leaves, outcomes, same⟩
      rcases ran with ⟨error, carried, ran⟩ | ⟨report, carried, ran⟩
      · have member : between ∈ store :: committed := by
          rw [isBetween, isFirst, ran]
          exact latest_take_mem store committed count
        obtain ⟨leaves, outcomes, same⟩ := unfinished carried member
        exact ⟨leaves, outcomes, fun _ => same⟩
      · by_cases incomplete : count ≤ committed.length
        · have member : between ∈ store :: committed := by
            rw [isBetween, isFirst, ran, take_append_of_le_length incomplete]
            exact latest_take_mem store committed count
          obtain ⟨leaves, outcomes, same⟩ := unfinished carried member
          exact ⟨leaves, outcomes, fun _ => same⟩
        · have isLast : between = carryOut (latest store committed)
              (recordChanges catalog ((plan store catalog).forWriter sole)) := by
            rw [isBetween, isFirst, ran, take_of_length_le (by
              rw [length_append, length_singleton]
              omega), latest_append]
            rfl
          have same : SameRecords store (latest store committed) :=
            (carried.sameElsewhere (latest_mem _ _)).sameRecords
          obtain ⟨outcomes, leaves⟩ := run_migrateAs_of_complete wellFormed
            addressable blocked same
          rw [← isLast] at outcomes leaves
          refine ⟨?_, ?_, ?_⟩
          · rw [isFirst, ran, latest_append]
            exact leaves.trans isLast
          · rw [isFirst, ran]
            exact outcomes
          · intro early
            rw [isFirst, ran, length_append, length_singleton] at early
            exact absurd (early rfl) (by omega)

/--
A migration that is stopped after any of its transactions and then planned and
applied again leaves what it would have left, and records nothing before it is
complete.
-/
theorem repeatable_migration
    {tables : List TableDef}
    (built : ∀ table ∈ tables, ∃ builder : TableBuilder, builder.build = .ok table)
    {catalog : Catalog}
    (made : Catalog.fromTables tables = .ok catalog)
    (addressable : ∀ table ∈ catalog.tables, table.columns.length < 2 ^ 64)
    (sole : Bool) (store : Kv) :
    Repeatable sole catalog store := by
  have wellFormed := Catalog.wellFormed_of_fromTables built made
  have distinct := Catalog.nodup_of_fromTables made
  have stopped := migrateAs_stoppedAfter wellFormed distinct addressable sole store
  constructor
  · intro count
    exact (stopped count).1
  · intro count
    exact (stopped count).2.1
  · intro count
    exact (stopped count).2.2

omit [Platform] in
/-- A first migration over the accounts may be stopped and repeated. -/
theorem repeatable_accounts :
    letI := asciiPlatform
    Catalog.fromTables [accounts] = .ok ⟨[accounts]⟩ ∧ Repeatable false ⟨[accounts]⟩
        (onlyRows accounts storedAccounts) := by
  let _ : Platform := asciiPlatform
  have made : Catalog.fromTables [accounts] = .ok ⟨[accounts]⟩ := rfl
  refine ⟨made, repeatable_migration ?_ made ?_ false _⟩
  · intro table member
    rw [mem_singleton.mp member]
    exact ⟨accountsBuilder, rfl⟩
  · intro table member
    rw [mem_singleton.mp member]
    decide

end Migration

end SlateOrm
