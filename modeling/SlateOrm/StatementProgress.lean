import SlateOrm.LostUpdates
import SlateOrm.SessionWrites

namespace SlateOrm

open RecordTransaction Write

/-!
# What statements buffer

A statement checks and buffers, row by row or all rows at once.  What it makes
of a state is put together here from what its parts make of it: the changes it
buffers and the state it leaves, or its refusal and the changes it has buffered
by then.  A statement in a session does the same as the statement alone.
-/

/-! ## Loops that stop at a refusal -/

variable {α : Type}

theorem Write.run_collect_eq
    {β : Type} (operation : α → Write β) (values : List α)
    (state : RecordState) :
    (collect operation values).run state =
      ((untilRefused operation values state).outcome.map
        (fun _ => (untilRefused operation values state).results),
        (untilRefused operation values state).state) := by
  induction values generalizing state with
  | nil => rfl
  | cons value rest ih =>
      simp only [collect, run_bind, untilRefused]
      cases (operation value).run state with
      | mk outcome between =>
          cases outcome with
          | error error => rfl
          | ok result =>
              simp only [ih between]
              cases (untilRefused operation rest between).outcome <;> rfl

theorem Write.run_forEach_eq
    (operation : α → Write Unit) (values : List α) (state : RecordState) :
    (forEach operation values).run state =
      ((untilRefused operation values state).outcome,
        (untilRefused operation values state).state) := by
  induction values generalizing state with
  | nil => rfl
  | cons value rest ih =>
      simp only [forEach, run_bind, untilRefused]
      cases (operation value).run state with
      | mk outcome between =>
          cases outcome with
          | error error => rfl
          | ok _ => simp only [ih between]

theorem Progress.describes_forEach
    {progress : Progress α} {operation : α → Write Unit} {values : List α}
    (describes : ∀ value ∈ values, ∀ state, progress.Describes operation value state)
    (state : RecordState) :
    progress.each.Describes (forEach operation) values state := by
  refine ((Progress.describes_each describes state).map (fun _ => ())).congr rfl ?_
  rw [run_bind, run_collect_eq, run_forEach_eq]
  cases (untilRefused operation values state).outcome with
  | error error
  | ok _ => rfl

/-! ## Rows -/

variable {records : RecordTransaction}

namespace RecordTransaction

variable [Platform]

section

variable
  (records : RecordTransaction) (context : SecurityContext) (table : TableDef)

/-- What writing a row makes of a state, without checks. -/
def rewriteProgress : Progress (Row × Option Row) :=
  fun state pair =>
    let written := records.stamped table pair.1 pair.2 state.readings
    let changes := rowChanges table written pair.2
    .ok (changes, (ticked table state).changed changes)

/-- What erasing a row makes of a state. -/
def eraseProgress : Progress Row := fun state row =>
    .ok (eraseChanges table row, state.changed (eraseChanges table row))

/-- What removing the rows of a deletion, if any, makes of a state. -/
def removeProgress : Progress (Option (List (TableDef × Row))) :=
  fun state found =>
    match found with
    | none => .ok ([], state)
    | some doomed => .ok (records.removals state doomed)

/-- What replacing a row that is expected makes of a state. -/
def swapProgress : Progress (Row × Row) :=
  .after (fun pair =>
    records.checkUpdateIfUnchanged context table pair.1 pair.2)
    (fun pair state existing =>
      records.writeProgress table pair.1 state (some existing))

/-- What deleting the row under a key makes of a state. -/
def deleteKeyProgress : Progress (List Value) :=
  .after (records.checkDelete context table) (fun _ => records.removeProgress)

/-- What deleting a row that is expected makes of a state. -/
def deleteExpectedProgress : Progress (List Value × Row) :=
  .after (fun pair =>
    records.checkDeleteIfUnchanged context table pair.1 pair.2)
    (fun _ state doomed => records.removeProgress state (some doomed))

/-- What writing rows that are checked together makes of a state. -/
def manyProgress (mode : BulkMode) : Progress (List Row) :=
  fun state rows =>
    if rows.isEmpty then
      .ok ([], state)
    else
      Progress.after (fun rows =>
        records.checkMany context table rows mode)
        (fun rows state existing =>
          (records.rewriteProgress table).each state (rows.zip existing))
        state rows

/-- The rows that a purge is about. -/
def checkPurge (before : Int64) (atMost : Option Nat) (snapshot : Snapshot) :
    Except KernelError (List Row) :=
  match table.softDelete with
  | none => .error (.notSoftDeleting table.name)
  | some column => do
      records.security.authorize context table .delete
      let query : Query := {
        filter := .all [.isNull column true, .compare column .lt (.i64 before)]
        includeDeleted := true }
      let cursor ← records.reads.execute snapshot context table query
      collectMatched atMost cursor

theorem run_purgeDeleted_eq
    (before : Int64) (atMost : Option Nat) (state : RecordState) :
    (records.purgeDeleted context table before atMost).run state = ((do
        let doomed ← reading (records.checkPurge context table before atMost)
        forEach (eraseRow table) doomed
        return doomed.length) : Write Nat).run state := by
  cases retires : table.softDelete with
  | none =>
      have refused : records.checkPurge context table before atMost state.transaction =
            .error (.notSoftDeleting table.name) := by
        rw [checkPurge, retires]
      rw [purgeDeleted, retires, run_reading_bind_of_error refused]
      rfl
  | some column =>
      simp only [purgeDeleted, retires, run_bind, run_lift, run_reading, checkPurge]
      cases records.security.authorize context table .delete with
      | error error
      | ok _ => rfl

theorem rewriteProgress_describes
    (pair : Row × Option Row)
    (state : RecordState) :
    (records.rewriteProgress table).Describes
      (fun pair => records.writeRowWith table pair.1 pair.2 false) pair
      state := by
  refine ⟨⟨(), run_writeRowWith_unverified ..⟩, ?_⟩
  rw [RecordState.changed_pending, ticked_transaction]

theorem eraseProgress_describes
    (row : Row) (state : RecordState) :
    (eraseProgress table).Describes (eraseRow table) row state :=
  ⟨⟨(), run_eraseRow table row state⟩, rfl⟩

theorem removeProgress_describes
    {doomed : List (TableDef × Row)}
    (retirable : ∀ pair ∈ doomed, Retirable pair.1 pair.2)
    (state : RecordState) :
    records.removeProgress.Describes
      (fun found => records.removeRows (found.getD [])) (some doomed)
      state := by
  obtain ⟨removed, buffered⟩ := run_removeRows retirable records state
  exact ⟨⟨(), removed⟩, buffered⟩

end

omit [Platform] in
theorem length_of_readRowUnchecked
    {snapshot : Snapshot} {table : TableDef} {primaryKey : List Value}
    {row : Row}
    (read : readRowUnchecked snapshot table primaryKey = .ok (some row)) :
    row.values.length = table.columns.length := by
  rw [readRowUnchecked] at read
  split at read
  · cases read
  · obtain ⟨decoded, decodes, isRow⟩ := bind_eq_ok.mp read
    cases isRow
    obtain ⟨values, width, rfl⟩ :=
      exists_fillKey_of_decodeRowColumns (liftSchema_eq_ok.mp decodes)
    rw [length_fillKey, width]

section

variable
  {table : TableDef}
  (wellFormed : table.WellFormed)

include wellFormed

theorem swapProgress_describes
    (records : RecordTransaction) (context : SecurityContext) (pair : Row × Row)
    (state : RecordState) :
    (records.swapProgress context table).Describes
      (fun pair => records.updateIfUnchanged context table pair.1 pair.2)
      pair state :=
  Progress.describes_after (fun pair : Row × Row =>
      records.checkUpdateIfUnchanged context table pair.1 pair.2) pair state
    (fun existing _ =>
      (writeProgress_describes wellFormed records pair.1 (some existing)
        state).congr rfl rfl)

theorem deleteKeyProgress_describes
    (catalogWellFormed : ∀ owner ∈ records.catalog.tables, owner.WellFormed)
    (context : SecurityContext) (primaryKey : List Value)
    (state : RecordState) :
    (records.deleteKeyProgress context table).Describes
      (records.delete context table) primaryKey state := by
  refine Progress.describes_after (records.checkDelete context table)
    primaryKey state (fun found checked => ?_)
  cases found with
  | none => exact Progress.describes_nothing rfl rfl
  | some doomed =>
      replace checked := ok_of_bind checked
      obtain ⟨existing, visible, checked⟩ := bind_eq_ok.mp checked
      cases existing with
      | none => cases checked
      | some existing =>
          obtain ⟨closure, closed, isClosure⟩ := bind_eq_ok.mp checked
          cases isClosure
          have retirable := retirable_of_deletionClosure wellFormed catalogWellFormed
            (length_of_readRowUnchecked (readRowUnchecked_of_visibleRow visible)) closed
          exact ((removeProgress_describes records retirable state).map
            (fun _ => true)).congr rfl rfl

theorem deleteExpectedProgress_describes
    (catalogWellFormed : ∀ owner ∈ records.catalog.tables, owner.WellFormed)
    (context : SecurityContext) (pair : List Value × Row)
    (state : RecordState) :
    (records.deleteExpectedProgress context table).Describes
      (fun pair => records.deleteIfUnchanged context table pair.1 pair.2)
      pair state := by
  refine Progress.describes_after (fun pair : List Value × Row =>
    records.checkDeleteIfUnchanged context table pair.1 pair.2) pair state
    (fun doomed checked => ?_)
  obtain ⟨_, existing, visible, _, closed⟩ := checkDeleteIfUnchanged_spec checked
  have retirable := retirable_of_deletionClosure wellFormed catalogWellFormed
    (length_of_readRowUnchecked (readRowUnchecked_of_visibleRow visible)) closed
  exact (removeProgress_describes records retirable state).congr rfl rfl

end

section

variable
  (records : RecordTransaction) (context : SecurityContext) (table : TableDef)

theorem manyProgress_describes
    (mode : BulkMode) (rows : List Row) (state : RecordState) :
    (records.manyProgress context table mode).Describes
      (fun rows => records.writeMany context table rows mode) rows
      state := by
  cases isEmpty : rows.isEmpty with
  | true =>
      have ran : (records.writeMany context table rows mode).run state =
            (.ok (), state) := by
        rw [writeMany, if_pos isEmpty]
        rfl
      refine Progress.describes_nothing ?_ ran
      rw [manyProgress, if_pos isEmpty]
  | false =>
      have notEmpty : ¬rows.isEmpty = true := by simp [isEmpty]
      have described : (Progress.after (fun rows =>
            records.checkMany context table rows mode)
            (fun rows state existing =>
              (records.rewriteProgress table).each state (rows.zip existing))).Describes
            (fun rows =>
              reading (records.checkMany context table rows mode) >>= fun existing =>
                  forEach (fun pair =>
                    records.writeRowWith table pair.1 pair.2 false)
                    (rows.zip existing)) rows state :=
        Progress.describes_after _ rows state (fun existing _ =>
          (Progress.describes_forEach (fun pair _ between =>
            rewriteProgress_describes records table pair between)
            state).congr rfl rfl)
      refine described.congr ?_ ?_
      · rw [manyProgress, if_neg notEmpty]
      · rw [writeMany, if_neg notEmpty]

/-- What a purge makes of a state. -/
def purgeProgress (atMost : Option Nat) : Progress Int64 :=
  .after (fun before => records.checkPurge context table before atMost)
    (fun _ => (eraseProgress table).each)

theorem purgeProgress_describes
    (atMost : Option Nat) (before : Int64) (state : RecordState) :
    (records.purgeProgress context table atMost).Describes
      (fun before => records.purgeDeleted context table before atMost)
      before state := by
  have described : (records.purgeProgress context table atMost).Describes (fun before =>
          reading (records.checkPurge context table before atMost) >>= fun doomed => do
              forEach (eraseRow table) doomed
              return doomed.length) before state :=
    Progress.describes_after _ before state (fun doomed _ =>
      (((Progress.describes_forEach (fun row _ between =>
        eraseProgress_describes table row between) state).map
          (fun _ => doomed.length)).congr rfl rfl))
  exact described.congr rfl (run_purgeDeleted_eq ..)

end

end RecordTransaction

/-! ## Statements -/

namespace Statement

variable [Platform]

/-- What a statement makes of a state. -/
def progress (records : RecordTransaction) (context : SecurityContext)
    (table : TableDef) : Progress Statement :=
  fun state statement =>
    match statement with
    | insert rows upsert =>
        records.manyProgress context table
          (if upsert then .upsert else .insert) state rows
    | update rows expected _ =>
        if expected.isEmpty then
          records.manyProgress context table .update state rows
        else
          (records.swapProgress context table).each state (rows.zip expected)
    | delete keys expected _ =>
        if !expected.isEmpty then
          (records.deleteExpectedProgress context table).each state (keys.zip expected)
        else
          (records.deleteKeyProgress context table).each state keys
    | purgeDeleted before atMost =>
        records.purgeProgress context table atMost state before
    | deleteWhere predicate atMost =>
        PredicateWrite.wholeProgress records context table atMost state
          (.deleteWhere predicate)
    | updateWhere predicate assignments atMost =>
        PredicateWrite.wholeProgress records context table atMost state
          (.updateWhere predicate assignments)

/-- A statement that stands alone does what its progress says. -/
theorem progress_describes
    {table : TableDef}
    (wellFormed : table.WellFormed)
    (catalogWellFormed : ∀ owner ∈ records.catalog.tables, owner.WellFormed)
    (context : SecurityContext) (statement : Statement) (state : RecordState) :
    (progress records context table).Describes
      (fun statement => statement.operation records context table) statement
      state := by
  cases statement with
  | insert rows upsert =>
      cases upsert with
      | false =>
          exact ((records.manyProgress_describes context table .insert rows
            state).map (fun _ => .counted rows.length)).congr rfl rfl
      | true =>
          exact ((records.manyProgress_describes context table .upsert rows
            state).map (fun _ => .counted rows.length)).congr rfl rfl
  | update rows expected _ =>
      cases expected with
      | nil =>
          exact ((records.manyProgress_describes context table .update rows
            state).map (fun _ => .counted rows.length)).congr rfl rfl
      | cons first others =>
          have looped : (records.swapProgress context table).each.Describes
                (forEach (fun pair =>
                  records.updateIfUnchanged context table pair.1 pair.2))
                (rows.zip (first :: others)) state :=
            Progress.describes_forEach (fun pair _ between =>
              records.swapProgress_describes wellFormed context pair between)
              state
          exact (looped.map (fun _ => .counted rows.length)).congr rfl rfl
  | delete keys expected _ =>
      cases expected with
      | nil =>
          have looped : (records.deleteKeyProgress context table).each.Describes
                (collect (records.delete context table)) keys state :=
            Progress.describes_each (fun key _ between =>
              deleteKeyProgress_describes wellFormed
                catalogWellFormed context key between) state
          exact (looped.map (fun there => .counted (there.count true))).congr rfl rfl
      | cons first others =>
          have looped : (records.deleteExpectedProgress context table).each.Describes
                (forEach (fun pair =>
                  records.deleteIfUnchanged context table pair.1 pair.2))
                (keys.zip (first :: others)) state :=
            Progress.describes_forEach (fun pair _ between =>
              deleteExpectedProgress_describes wellFormed
                catalogWellFormed context pair between) state
          exact (looped.map (fun _ => .counted keys.length)).congr rfl rfl
  | purgeDeleted before atMost =>
      exact ((records.purgeProgress_describes context table atMost before
        state).map Written.counted).congr rfl rfl
  | deleteWhere predicate atMost =>
      exact ((PredicateWrite.wholeProgress_describes wellFormed
        catalogWellFormed context atMost (.deleteWhere predicate)
        state).map Written.touched).congr rfl rfl
  | updateWhere predicate assignments atMost =>
      exact ((PredicateWrite.wholeProgress_describes wellFormed
        catalogWellFormed context atMost (.updateWhere predicate assignments)
        state).map Written.touched).congr rfl rfl

end Statement

/-! ## Statements in a session -/

theorem Applied.run_whole
    (operation : Write α) (written : α → Written) (state : RecordState) :
    ((do
      let result ← operation
      return written result) : Write Written).run state =
      ((Applied.whole operation written state).outcome,
        (Applied.whole operation written state).state) := by
  rw [run_bind, whole]
  cases operation.run state with
  | mk outcome after => cases outcome <;> rfl

/-- A statement in a session does what it does alone. -/
theorem Statement.run_operation
    [Platform] (records : RecordTransaction) (context : SecurityContext)
    (table : TableDef) (statement : Statement) (state : RecordState) :
    (statement.operation records context table).run state =
      ((statement.apply records context table state).outcome,
        (statement.apply records context table state).state) := by
  cases statement with
  | insert rows upsert =>
      cases upsert with
      | false
      | true => exact Applied.run_whole ..
  | update rows expected _ =>
      simp only [operation, apply]
      split
      · exact Applied.run_whole ..
      · rw [run_bind, run_forEach_eq]
        cases (untilRefused _ (rows.zip expected) state).outcome with
        | error error
        | ok _ => rfl
  | delete keys expected _ =>
      simp only [operation, apply]
      split
      · rw [run_bind, run_forEach_eq]
        cases (untilRefused _ (keys.zip expected) state).outcome with
        | error error
        | ok _ => rfl
      · rw [run_bind, run_collect_eq]
        cases (untilRefused _ keys state).outcome with
        | error error
        | ok _ => rfl
  | purgeDeleted before atMost
  | deleteWhere predicate atMost
  | updateWhere predicate assignments atMost => exact Applied.run_whole ..

end SlateOrm
