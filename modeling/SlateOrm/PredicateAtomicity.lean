import SlateOrm.DeletionClosure
import SlateOrm.RecordAtomicity
import SlateOrm.WriteProgress

namespace SlateOrm

open RecordTransaction Write Overlay RecordState

/-!
# Failed predicate writes

A predicate write works through the rows it has found one by one, and the rows
before a refused one have been written by then.  So a failed predicate write
leaves the buffered writes as they were exactly when the last change to each
key that those rows make was buffered already: in particular when it is the
first row that is refused.
-/

namespace RecordTransaction

/-- A row that has the column in which it would be retired. -/
def Retirable (table : TableDef) (row : Row) : Prop :=
  ∀ column, table.softDelete = some column → column < row.values.length

variable {table : TableDef} {row : Row} {doomed : List (TableDef × Row)}
  {records : RecordTransaction} {context : SecurityContext}
  {snapshot : Snapshot}

theorem retirable_of_length
    (wellFormed : table.WellFormed)
    (width : row.values.length = table.columns.length) :
    Retirable table row := by
  intro column isRetired
  obtain ⟨definition, isColumn, _⟩ := wellFormed.softDelete column isRetired
  rw [width]
  exact (List.getElem?_eq_some_iff.mp isColumn).1

variable [Platform]

/-! ## Updates -/

/-- What writing a row makes of a state, with its slots checked. -/
def writeProgress (records : RecordTransaction) (table : TableDef)
    (row : Row) : Progress (Option Row) :=
  fun state previous =>
    let written := records.stamped table row previous state.readings
    match refusedAfter table written previous state.transaction
        table.indexes with
    | some refused => .error refused
    | none =>
        let changes := rowChanges table written previous
        .ok (changes, (ticked table state).changed changes)

theorem writeProgress_describes
    (wellFormed : table.WellFormed)
    (records : RecordTransaction) (row : Row) (previous : Option Row)
    (state : RecordState) :
    (records.writeProgress table row).Describes (records.writeRow table row)
      previous state := by
  have written := run_writeRow wellFormed records row previous state
  simp only at written
  rw [Progress.Describes, writeProgress]
  cases refused : refusedAfter table
      (records.stamped table row previous state.readings) previous
      state.transaction table.indexes with
  | none =>
      rw [refused] at written
      refine ⟨⟨(), written⟩, ?_⟩
      rw [changed_pending, ticked_transaction]
  | some refusal =>
      rw [refused] at written
      refine ⟨_, written, ?_⟩
      rw [changed_pending, ticked_transaction]

/-- What changing one row makes of a state. -/
def updateProgress (records : RecordTransaction)
    (context : SecurityContext) (table : TableDef)
    (assignments : List (Ordinal × Scalar)) : Progress Row :=
  fun state existing =>
    let next := assigned assignments existing
    match records.checkMatched context table next existing
        state.transaction with
    | .error error => .error (error, [])
    | .ok _ =>
        let written := records.stamped table next (some existing) state.readings
        match refusedAfter table written (some existing) state.transaction
            table.indexes with
        | some refused => .error refused
        | none =>
            let changes := rowChanges table written (some existing)
            .ok (changes, (ticked table state).changed changes)

theorem updateProgress_describes
    (wellFormed : table.WellFormed)
    (records : RecordTransaction) (context : SecurityContext)
    (assignments : List (Ordinal × Scalar)) (existing : Row)
    (state : RecordState) :
    (records.updateProgress context table assignments).Describes
      (records.updateMatched context table assignments) existing state := by
  have described : (Progress.after (fun existing =>
        records.checkMatched context table (assigned assignments existing) existing)
        (fun existing state _ =>
          records.writeProgress table (assigned assignments existing) state
            (some existing))).Describes
        (records.updateMatched context table assignments) existing state :=
    Progress.describes_after _ existing state (fun _ _ =>
      ((writeProgress_describes wellFormed records
        (assigned assignments existing) (some existing) state).map
          (fun _ => conceal (assigned assignments existing)
            (records.security.concealed context table))).congr rfl rfl)
  refine described.congr ?_ rfl
  rw [updateProgress, Progress.after]
  cases records.checkMatched context table (assigned assignments existing)
      existing state.transaction with
  | error error => rfl
  | ok _ => rfl

/-! ## Deletions -/

/-- The changes that removing a row buffers, and the state it leaves. -/
def removal (records : RecordTransaction) (state : RecordState)
    (table : TableDef) (row : Row) : List Change × RecordState :=
  match table.softDelete with
  | none => (eraseChanges table row, state.changed (eraseChanges table row))
  | some column =>
      let retired : Row := ⟨row.values.set column (.i64 (records.clock state.readings))⟩
      let read := { state with readings := state.readings + 1 }
      let changes := rowChanges table
          (records.stamped table retired (some row) read.readings) (some row)
      (changes, (ticked table read).changed changes)

/-- The changes that removing rows buffers, and the state it leaves. -/
def removals (records : RecordTransaction) :
    RecordState → List (TableDef × Row) → List Change × RecordState
  | state, [] => ([], state)
  | state, doomed :: rest =>
      let first := records.removal state doomed.1 doomed.2
      let others := records.removals first.2 rest
      (first.1 ++ others.1, others.2)

theorem run_removeRow
    (retirable : Retirable table row) (records : RecordTransaction)
    (state : RecordState) :
    (records.removeRow table row).run state =
        (.ok (), (records.removal state table row).2) ∧
      (records.removal state table row).2.transaction.pending =
        buffer state.transaction.pending (records.removal state table row).1 := by
  rw [removeRow, removal]
  cases isRetired : table.softDelete with
  | none => exact ⟨run_eraseRow table row state, rfl⟩
  | some column =>
      refine ⟨?_, ?_⟩
      · have clockRead : (records.now).run state = (.ok (records.clock state.readings),
                { state with readings := state.readings + 1 }) :=
          rfl
        rw [run_bind_of_ok clockRead, if_pos (retirable column isRetired)]
        exact run_writeRowWith_unverified ..
      · rw [changed_pending, ticked_transaction]

theorem run_removeRows
    (retirable : ∀ pair ∈ doomed, Retirable pair.1 pair.2)
    (records : RecordTransaction) (state : RecordState) :
    (records.removeRows doomed).run state =
        (.ok (), (records.removals state doomed).2) ∧
      (records.removals state doomed).2.transaction.pending =
        buffer state.transaction.pending (records.removals state doomed).1 := by
  induction doomed generalizing state with
  | nil => exact ⟨rfl, rfl⟩
  | cons pair rest ih =>
      obtain ⟨removed, buffered⟩ :=
        run_removeRow (retirable pair (List.mem_cons_self ..)) records state
      obtain ⟨removedRest, bufferedRest⟩ := ih (fun other member => retirable other
        (List.mem_cons_of_mem _ member)) (records.removal state pair.1 pair.2).2
      refine ⟨(run_bind_of_ok removed).trans removedRest, ?_⟩
      rw [removals, bufferedRest, buffered, ← buffer_append]

/-- What deleting one row makes of a state. -/
def deleteProgress (records : RecordTransaction)
    (context : SecurityContext) (table : TableDef) : Progress Row :=
  fun state row =>
    match records.deletionClosure context table row state.transaction with
    | .error error => .error (error, [])
    | .ok doomed => .ok (records.removals state doomed)

theorem length_of_referencingRows
    {child : TableDef} {foreignKey : ForeignKeyDef} {parentKey : List Value}
    {retired : Deleted} {rows : List Row}
    (found : records.referencingRows context child foreignKey parentKey
      retired snapshot = .ok rows) :
    ∀ row ∈ rows, row.values.length = child.columns.length := by
  obtain ⟨cursor, executed, collected⟩ := bind_eq_ok.mp found
  obtain ⟨plan, _, opened⟩ := opened_of_execute executed
  exact (length_openCursor rfl opened).of_mem_collect collected

theorem length_of_matchingRows
    {predicate : Expr} {atMost : Option Nat} {rows : List Row}
    (found : records.matchingRows context table predicate atMost snapshot = .ok rows) :
    ∀ row ∈ rows, row.values.length = table.columns.length := by
  obtain ⟨cursor, executed, collected⟩ := bind_eq_ok.mp found
  obtain ⟨plan, _, opened⟩ := opened_of_executeForWrite executed
  have wide := length_openCursor rfl opened
  cases atMost with
  | none => exact wide.of_mem_collect collected
  | some limit => exact wide.of_mem_collect (Cursor.collect_of_collectAtMost collected)

theorem retirable_of_deletionClosure
    (wellFormed : table.WellFormed)
    (catalogWellFormed : ∀ owner ∈ records.catalog.tables, owner.WellFormed)
    (width : row.values.length = table.columns.length)
    (closed : records.deletionClosure context table row snapshot = .ok doomed) :
    ∀ pair ∈ doomed, Retirable pair.1 pair.2 :=
  deletionClosure_forall (fun child _ _ _ inCatalog found other member =>
      retirable_of_length (catalogWellFormed child inCatalog)
        (length_of_referencingRows found other member))
    (retirable_of_length wellFormed width) closed

theorem deleteProgress_describes
    (wellFormed : table.WellFormed)
    (catalogWellFormed : ∀ owner ∈ records.catalog.tables, owner.WellFormed)
    (context : SecurityContext)
    (width : row.values.length = table.columns.length)
    (state : RecordState) :
    (records.deleteProgress context table).Describes
      (records.deleteMatched context table) row state := by
  have described : (Progress.after (records.deletionClosure context table)
        (fun _ state doomed => .ok (records.removals state doomed))).Describes
        (records.deleteMatched context table) row state := by
    refine Progress.describes_after (records.deletionClosure context table)
      row state (fun doomed closed => ?_)
    have retirable :=
      retirable_of_deletionClosure wellFormed catalogWellFormed width closed
    obtain ⟨removed, buffered⟩ := run_removeRows retirable records state
    exact ⟨⟨_, run_bind_of_ok removed⟩, buffered⟩
  refine described.congr ?_ rfl
  rw [deleteProgress, Progress.after]
  cases records.deletionClosure context table row state.transaction with
  | error error
  | ok _ => rfl

end RecordTransaction

theorem wellFormed_of_built
    {tables : List TableDef}
    (built : ∀ owner ∈ tables, ∃ builder : TableBuilder, builder.build = .ok owner) :
    ∀ owner ∈ tables, owner.WellFormed := by
  intro owner member
  obtain ⟨_, ownerBuilt⟩ := built owner member
  exact TableBuilder.build_wellFormed ownerBuilt

/-! ## Predicate writes -/

/-- A write of the rows that a predicate finds. -/
inductive PredicateWrite where
  | deleteWhere (predicate : Expr)
  | updateWhere (predicate : Expr) (assignments : List (Ordinal × Scalar))

namespace PredicateWrite

variable [Platform]

variable
  (records : RecordTransaction) (context : SecurityContext) (table : TableDef)

/-- Carry out a write. -/
def operation (atMost : Option Nat) : PredicateWrite → Write (List Row)
  | .deleteWhere predicate => records.deleteWhere context table predicate atMost
  | .updateWhere predicate assignments =>
      records.updateWhere context table predicate assignments atMost

/-- A failed write leaves the buffered writes as they were. -/
def FailsCleanly (atMost : Option Nat) (write : PredicateWrite) (state : RecordState) :
    Prop :=
  ∀ error after, (write.operation records context table atMost).run state =
      (.error error, after) →
    after.transaction.pending = state.transaction.pending

/-- The rows that a write finds, if it passes its checks. -/
def matched (atMost : Option Nat) (snapshot : Snapshot) :
    PredicateWrite → Except KernelError (List Row)
  | .deleteWhere predicate =>
      records.checkDeleteWhere context table predicate atMost snapshot
  | .updateWhere predicate assignments =>
      records.checkUpdateWhere context table predicate assignments atMost snapshot

/-- What a write makes of one row. -/
def progress : PredicateWrite → Progress Row
  | .deleteWhere _ => records.deleteProgress context table
  | .updateWhere _ assignments => records.updateProgress context table assignments

/-- What a write does with one row. -/
def ofRow : PredicateWrite → Row → Write Row
  | .deleteWhere _ => records.deleteMatched context table
  | .updateWhere _ assignments => records.updateMatched context table assignments

/--
Where one of the rows that a write finds is refused, the last change to each
key that the rows before it make is buffered already.
-/
def RefusedBeforeWriting (atMost : Option Nat) (write : PredicateWrite)
    (state : RecordState) : Prop :=
  ∀ rows, write.matched records context table atMost state.transaction = .ok rows →
    ∀ error changes, (write.progress records context table).refusal state rows =
        some (error, changes) →
      ∀ key value, Overlay.lastWrite key changes = some value →
        state.transaction.pending[key]? = some value

theorem operation_eq
    (atMost : Option Nat) (write : PredicateWrite) :
    write.operation records context table atMost = (do
        let rows ← reading (fun snapshot =>
          write.matched records context table atMost snapshot)
        collect (write.ofRow records context table) rows) := by
  cases write <;> rfl

variable {records : RecordTransaction} {table : TableDef}

theorem length_of_matched
    {context : SecurityContext} {atMost : Option Nat} {write : PredicateWrite}
    {snapshot : Snapshot} {rows : List Row}
    (found : write.matched records context table atMost snapshot = .ok rows) :
    ∀ row ∈ rows, row.values.length = table.columns.length := by
  cases write with
  | deleteWhere predicate =>
      obtain ⟨_, _, matching⟩ := bind_eq_ok.mp found
      exact length_of_matchingRows matching
  | updateWhere predicate assignments =>
      obtain ⟨_, _, checked⟩ := bind_eq_ok.mp found
      replace checked := ok_of_bind checked
      split at checked
      · cases checked
        intro row member
        cases member
      · obtain ⟨_, _, matching⟩ := bind_eq_ok.mp checked
        exact length_of_matchingRows matching

theorem progress_describes
    (wellFormed : table.WellFormed)
    (catalogWellFormed : ∀ owner ∈ records.catalog.tables, owner.WellFormed)
    (context : SecurityContext) (write : PredicateWrite) {row : Row}
    (width : row.values.length = table.columns.length)
    (state : RecordState) :
    (write.progress records context table).Describes
      (write.ofRow records context table) row state := by
  cases write with
  | deleteWhere predicate =>
      exact deleteProgress_describes wellFormed catalogWellFormed context width state
  | updateWhere predicate assignments =>
      exact updateProgress_describes wellFormed records context assignments row state

/-- What a predicate write makes of a state. -/
def wholeProgress (records : RecordTransaction)
    (context : SecurityContext) (table : TableDef) (atMost : Option Nat) :
    Progress PredicateWrite :=
  .after (fun write snapshot =>
    write.matched records context table atMost snapshot)
    (fun write => (write.progress records context table).each)

theorem wholeProgress_describes
    (wellFormed : table.WellFormed)
    (catalogWellFormed : ∀ owner ∈ records.catalog.tables, owner.WellFormed)
    (context : SecurityContext) (atMost : Option Nat) (write : PredicateWrite)
    (state : RecordState) :
    (wholeProgress records context table atMost).Describes
      (fun write => write.operation records context table atMost) write
      state := by
  have described : (wholeProgress records context table atMost).Describes (fun write =>
          reading (fun snapshot =>
            write.matched records context table atMost snapshot) >>=
            fun rows => collect (write.ofRow records context table) rows)
        write state :=
    Progress.describes_after _ write state (fun rows found =>
      (Progress.describes_each (fun row member between =>
        progress_describes wellFormed catalogWellFormed context write
          (length_of_matched found row member) between) state).congr rfl rfl)
  refine described.congr rfl ?_
  rw [operation_eq]

/--
A failed predicate write leaves the buffered writes as they were exactly when
what the rows before the refused one change was buffered already.
-/
theorem predicateWrite_failsCleanly_iff
    {builder : TableBuilder} {table : TableDef}
    (built : builder.build = .ok table)
    {records : RecordTransaction}
    (catalogBuilt : ∀ owner ∈ records.catalog.tables,
      ∃ ownerBuilder : TableBuilder, ownerBuilder.build = .ok owner)
    (context : SecurityContext) (atMost : Option Nat) (write : PredicateWrite)
    (state : RecordState) :
    write.FailsCleanly records context table atMost state ↔
      write.RefusedBeforeWriting records context table atMost state := by
  have wellFormed := TableBuilder.build_wellFormed built
  have catalogWellFormed := wellFormed_of_built catalogBuilt
  have described := wholeProgress_describes wellFormed catalogWellFormed
    context atMost write state
  rw [FailsCleanly, described.clean_iff, RefusedBeforeWriting,
    wholeProgress, Progress.after]
  cases found : write.matched records context table atMost state.transaction with
  | error failed => simp [lastWrite]
  | ok rows => simp only [Progress.each_eq_error, Except.ok.injEq, forall_eq']

end PredicateWrite

/-! ## A refused row after another -/

/-- A transaction that has inserted two accounts. -/
def twoAccounts : RecordState :=
  letI := asciiPlatform
  (((RecordTransaction.plain ⟨[accounts]⟩).insert .superuser accounts
    ⟨[.i64 2, .i64 11, .i64 21]⟩).run oneAccount).2

theorem accounts_built :
    ∀ owner ∈ (plain ⟨[accounts]⟩).catalog.tables,
      ∃ builder : TableBuilder, builder.build = .ok owner := by
  intro owner inCatalog
  rw [List.mem_singleton.mp inCatalog]
  exact ⟨accountsBuilder, rfl⟩

/-- A phone that is not a number is refused at the first account. -/
theorem failsCleanly_phoneType :
    letI := asciiPlatform
    accountsBuilder.build = .ok accounts ∧ (PredicateWrite.updateWhere (.all [])
        [(1, .literal (.bool true))]).FailsCleanly
        (.plain ⟨[accounts]⟩) .superuser accounts none twoAccounts := by
  let _ : Platform := asciiPlatform
  have built : accountsBuilder.build = .ok accounts := rfl
  refine ⟨built, (PredicateWrite.predicateWrite_failsCleanly_iff built
    accounts_built _ _ _ _).mpr ?_⟩
  intro rows isMatched error changes refused key value isLast
  have found : (PredicateWrite.updateWhere (.all [])
        [(1, .literal (.bool true))]).matched (.plain ⟨[accounts]⟩)
          .superuser accounts none twoAccounts.transaction =
        .ok [⟨[.i64 1, .i64 10, .i64 20]⟩, ⟨[.i64 2, .i64 11, .i64 21]⟩] :=
    rfl
  rw [found] at isMatched
  cases isMatched
  have nothing : changes = [] :=
    (congrArg (fun found => (found.map Prod.snd).getD []) refused).symm
  rw [nothing] at isLast
  cases isLast

/-- What giving every account one phone comes to. -/
def samePhone : Except KernelError (List Row) × RecordState :=
  letI := asciiPlatform
  ((RecordTransaction.plain ⟨[accounts]⟩).updateWhere .superuser accounts
    (.all []) [(1, .literal (.i64 30))] none).run twoAccounts

/--
Giving every account one phone is refused at the second account, after the
first has been given it.
-/
theorem not_failsCleanly_samePhone :
    ¬∀ (_ : Platform) (builder : TableBuilder) (table : TableDef),
      builder.build = .ok table →
      ∀ (records : RecordTransaction) (context : SecurityContext)
        (atMost : Option Nat) (write : PredicateWrite)
        (state : RecordState),
        (∀ owner ∈ records.catalog.tables,
          ∃ ownerBuilder : TableBuilder, ownerBuilder.build = .ok owner) →
        write.FailsCleanly records context table atMost state := by
  intro always
  have built : accountsBuilder.build = .ok accounts := rfl
  have clean := always asciiPlatform accountsBuilder accounts built
    (.plain ⟨[accounts]⟩) .superuser none
    (.updateWhere (.all []) [(1, .literal (.i64 30))]) twoAccounts
    accounts_built
  have isRefused : samePhone.1.isOk = false := by decide
  cases refused : samePhone.1 with
  | ok rows =>
      rw [refused] at isRefused
      cases isRefused
  | error error =>
      have unchanged := clean error samePhone.2 (Prod.ext refused rfl)
      have written := congrArg (fun pending : Pending =>
          pending[([2, 0, 0, 0, 1, 22, 30] : Bytes)]?) unchanged
      exact absurd written (by decide)

end SlateOrm
