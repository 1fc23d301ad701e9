import SlateOrm.RecordMachine
import SlateOrm.RowCode

namespace SlateOrm

open RecordTransaction Keys Write Overlay

/-!
# Conditional writes lose no update

A conditional write compares the row it is about to replace with the row its
caller expects.  It makes the comparison on the transaction's snapshot, and it
writes the key that it has read.  So the store refuses the commit if another
transaction has written that key meanwhile, and a commit that is not refused
finds the committed row as it was compared.
-/

/-! ## The key that a write writes -/

namespace Write

variable {α : Type}

variable {state after : RecordState}

theorem Buffers.mem_pending
    {operation : Write α} (buffers : operation.Buffers)
    {outcome : Except KernelError α} {key : Bytes}
    (ran : operation.run state = (outcome, after))
    (written : key ∈ state.transaction.pending) :
    key ∈ after.transaction.pending := by
  obtain ⟨changes, buffered⟩ := buffers.changes state
  rw [ran] at buffered
  simp only at buffered
  rw [buffered, RecordState.changed_pending]
  exact mem_buffer_of_mem changes written

theorem mem_pending_of_forEach
    {operation : α → Write Unit}
    (buffers : ∀ value, (operation value).Buffers)
    {value : α} {key : Bytes}
    (writes : ∀ state after, (operation value).run state = (.ok (), after) →
        key ∈ after.transaction.pending)
    {values : List α}
    (member : value ∈ values)
    (ran : (forEach operation values).run state = (.ok (), after)) :
    key ∈ after.transaction.pending := by
  induction values generalizing state with
  | nil => cases member
  | cons first rest ih =>
      obtain ⟨_, between, ranFirst, ranRest⟩ := run_bind_eq_ok.mp ran
      rcases List.mem_cons.mp member with rfl | inRest
      · exact (Buffers.forEach buffers rest).mem_pending ranRest
          (writes state between ranFirst)
      · exact ih inRest ranRest

end Write

namespace RecordTransaction

variable {table : TableDef} {records : RecordTransaction}
  {state after : RecordState} {row : Row} {context : SecurityContext}
  {snapshot : Snapshot} {primaryKey : List Value}

theorem primaryKeyValues_stamped
    (wellFormed : table.WellFormed)
    (records : RecordTransaction) (row : Row) (previous : Option Row)
    (readings : Nat) :
    (records.stamped table row previous readings).primaryKeyValues table =
      row.primaryKeyValues table := by
  rw [stamped]
  split
  · refine List.map_congr_left (fun ordinal inKey => ?_)
    obtain ⟨column, isColumn, _, _, unmanaged⟩ := wellFormed.key ordinal inKey
    simp only [Row.valueOrNull, Row.get, stampedValues, List.getElem?_map,
      List.getElem?_zipIdx]
    cases row.values[ordinal]? with
    | none => rfl
    | some value => simp [isColumn, unmanaged]
  · rfl

theorem primaryKeyValues_retired
    (wellFormed : table.WellFormed)
    {column : Ordinal}
    (retires : table.softDelete = some column)
    (row : Row) (value : Value) :
    (⟨row.values.set column value⟩ : Row).primaryKeyValues table =
      row.primaryKeyValues table := by
  obtain ⟨retiring, isRetiring, nullable⟩ := wellFormed.softDelete column retires
  refine List.map_congr_left (fun ordinal inKey => ?_)
  obtain ⟨key, isKey, notNull, _⟩ := wellFormed.key ordinal inKey
  have different : column ≠ ordinal := by
    rintro rfl
    rw [isRetiring] at isKey
    cases isKey
    rw [nullable.nullable] at notNull
    cases notNull
  simp only [Row.valueOrNull, Row.get]
  rw [List.getElem?_set_ne different]

variable [Platform]

theorem mem_pending_of_writeRowWith
    (wellFormed : table.WellFormed)
    {previous : Option Row} {verifyUnique : Bool}
    (ran : (records.writeRowWith table row previous verifyUnique).run state =
      (.ok (), after)) :
    rowKey table (row.primaryKeyValues table) ∈
      after.transaction.pending := by
  obtain ⟨stampedRow, between, stamped, ran⟩ := run_bind_eq_ok.mp ran
  rw [run_stamp] at stamped
  cases stamped
  obtain ⟨_, indexed, _, ran⟩ := run_bind_eq_ok.mp ran
  rw [run_put, primaryKeyValues_stamped wellFormed] at ran
  cases ran
  exact mem_buffer_of_change (List.mem_singleton.mpr rfl)

theorem mem_pending_of_removeRow
    (wellFormed : table.WellFormed)
    (ran : (records.removeRow table row).run state = (.ok (), after)) :
    rowKey table (row.primaryKeyValues table) ∈
      after.transaction.pending := by
  rw [removeRow] at ran
  split at ran
  · rw [run_eraseRow] at ran
    cases ran
    exact mem_buffer_of_change (List.mem_append_right _ (List.mem_singleton.mpr rfl))
  · next column retires =>
      obtain ⟨now, between, _, ran⟩ := run_bind_eq_ok.mp ran
      split at ran
      · rw [← primaryKeyValues_retired wellFormed retires row (.i64 now)]
        exact mem_pending_of_writeRowWith wellFormed ran
      · cases ran

/-! ## The row that a conditional write compares -/

theorem readRowUnchecked_of_visibleRow
    {action : Action} {deleted : Deleted}
    (visible : records.visibleRowWith context table action primaryKey deleted
      snapshot = .ok (some row)) :
    readRowUnchecked snapshot table primaryKey = .ok (some row) := by
  obtain ⟨found, read, visible⟩ := bind_eq_ok.mp visible
  cases found with
  | none => cases visible
  | some stored =>
      obtain ⟨permitted, _, visible⟩ := bind_eq_ok.mp visible
      cases permitted with
      | false => cases visible
      | true =>
          cases visible
          exact read

theorem checkUpdateIfUnchanged_spec
    {row expected existing : Row}
    (checked : records.checkUpdateIfUnchanged context table row expected
      snapshot = .ok existing) :
    records.visibleRow context table .update (row.primaryKeyValues table)
        snapshot = .ok (some existing) ∧
      (existing == expected) = true := by
  rw [checkUpdateIfUnchanged] at checked
  replace checked := ok_of_bind checked
  replace checked := ok_of_bind checked
  replace checked := ok_of_bind checked
  replace checked := ok_of_bind checked
  dsimp only at checked
  split at checked
  · cases checked
  · obtain ⟨found, visible, checked⟩ := bind_eq_ok.mp checked
    cases found with
    | none => cases checked
    | some stored =>
        dsimp only at checked
        split at checked
        · cases checked
        · next same =>
            replace checked := ok_of_bind checked
            cases checked
            exact ⟨visible, by simpa [bne] using same⟩

theorem checkDeleteIfUnchanged_spec
    {expected : Row} {doomed : List (TableDef × Row)}
    (checked : records.checkDeleteIfUnchanged context table primaryKey
      expected snapshot = .ok doomed) :
    (expected.primaryKeyValues table == primaryKey) = true ∧ ∃ existing,
        records.visibleRow context table .delete primaryKey snapshot =
            .ok (some existing) ∧
          (existing == expected) = true ∧
            records.deletionClosure context table existing snapshot = .ok doomed := by
  rw [checkDeleteIfUnchanged] at checked
  replace checked := ok_of_bind checked
  replace checked := ok_of_bind checked
  replace checked := ok_of_bind checked
  split at checked
  · cases checked
  · next sameKey =>
      obtain ⟨found, visible, checked⟩ := bind_eq_ok.mp checked
      cases found with
      | none => cases checked
      | some stored =>
          dsimp only at checked
          split at checked
          · cases checked
          · next same =>
              exact ⟨by simpa [bne] using sameKey, stored, visible,
                by simpa [bne] using same, checked⟩

end RecordTransaction

/-- A write that its caller expects to meet a row. -/
inductive ConditionalWrite where
  | update (row expected : Row)
  | delete (primaryKey : List Value) (expected : Row)

namespace ConditionalWrite

/-- The row that the caller expects. -/
def expected : ConditionalWrite → Row
  | update _ expected => expected
  | delete _ expected => expected

/-- The primary key that the caller names. -/
def primaryKey (table : TableDef) : ConditionalWrite → List Value
  | update row _ => row.primaryKeyValues table
  | delete primaryKey _ => primaryKey

/-- The call that asks for the write. -/
def toRecordWrite : ConditionalWrite → RecordWrite
  | update row expected => .keyed (.updateIfUnchanged row expected)
  | delete primaryKey expected => .deleteIfUnchanged primaryKey expected

variable [Platform]

variable {records : RecordTransaction} {write : ConditionalWrite}
  {context : SecurityContext} {state after : RecordState}

theorem read_of_succeeded
    {table : TableDef}
    (ran : (write.toRecordWrite.operation records context table).run state =
      (.ok (), after)) :
    ∃ row, readRowUnchecked state.transaction table (write.primaryKey table) =
          .ok (some row) ∧
        (row == write.expected) = true := by
  cases write with
  | update row expected =>
      obtain ⟨existing, checked, _⟩ := run_reading_bind_eq_ok.mp ran
      obtain ⟨visible, same⟩ := checkUpdateIfUnchanged_spec checked
      exact ⟨existing, readRowUnchecked_of_visibleRow visible, same⟩
  | delete primaryKey expected =>
      obtain ⟨doomed, checked, _⟩ := run_reading_bind_eq_ok.mp ran
      obtain ⟨_, existing, visible, same, _⟩ := checkDeleteIfUnchanged_spec checked
      exact ⟨existing, readRowUnchecked_of_visibleRow visible, same⟩

theorem mem_pending_of_succeeded
    {table : TableDef}
    (wellFormed : table.WellFormed)
    (ran : (write.toRecordWrite.operation records context table).run state =
      (.ok (), after)) :
    rowKey table (write.primaryKey table) ∈
      after.transaction.pending := by
  cases write with
  | update row expected =>
      obtain ⟨existing, _, written⟩ := run_reading_bind_eq_ok.mp ran
      exact mem_pending_of_writeRowWith wellFormed written
  | delete primaryKey expected =>
      obtain ⟨doomed, checked, removed⟩ := run_reading_bind_eq_ok.mp ran
      obtain ⟨sameKey, existing, _, same, closed⟩ := checkDeleteIfUnchanged_spec checked
      have sameRow : existing.Same expected :=
        (Row.beq_iff_same existing expected).mp same
      have namedKey : rowKey table primaryKey =
          rowKey table (existing.primaryKeyValues table) := by
        have sameEncoding : encodeWith (expected.primaryKeyValues table) [] =
              encodeWith primaryKey [] :=
          encodeWith_congr ((Value.beq_list_iff_canonical _ _).mp sameKey)
        rw [sameRow.rowKey table, rowKey, rowKey, encode, encode, sameEncoding]
      rw [ConditionalWrite.primaryKey, namedKey]
      rw [removeRows] at removed
      refine mem_pending_of_forEach (fun _ => ?_) (fun _ _ => ?_)
        (root_mem_deletionClosure closed) removed
      · exact records.buffers_removeRow ..
      · exact mem_pending_of_removeRow wellFormed

end ConditionalWrite

/-! ## Until the commit -/

theorem readRowUnchecked_congr
    {first second : Snapshot} {table : TableDef} {primaryKey : List Value}
    (same : first.get (rowKey table primaryKey) =
      second.get (rowKey table primaryKey)) :
    readRowUnchecked first table primaryKey =
      readRowUnchecked second table primaryKey := by
  rw [readRowUnchecked, readRowUnchecked, same]

/-- A transaction has written a key that its snapshot holds something under. -/
def Guards (id : Nat) (key : Bytes) (held : Option Bytes)
    (state : MemoryStore.State) : Prop :=
  ∀ session ∈ state.sessions, session.id = id → session.live →
      key ∈ session.transaction.pending ∧ session.transaction.base[key]? = held

namespace RecordMachine

variable [Platform]

variable {state next : MemoryStore.State} {session : MemoryStore.Session}

theorem continues_of_step
    {event : Event}
    (stepped : step state event = some next)
    (member : session ∈ next.sessions)
    (live : session.live) :
    event = .store (.begin session.id) ∨
      ∃ before ∈ state.sessions, before.Continues session := by
  cases event with
  | store action =>
      obtain ⟨⟨_, response⟩, answered, rfl⟩ := Option.map_eq_some_iff.mp stepped
      rcases MemoryStore.continues_of_step answered member live with
        rfl | continues
      · exact Or.inl rfl
      · exact Or.inr continues
  | write id records context table write =>
      obtain ⟨found, changes, isLive, rfl⟩ := exists_buffered_of_step stepped
      obtain ⟨inState, _, foundLive⟩ := MemoryStore.State.of_live? isLive
      refine Or.inr (MemoryStore.continues_of_replace inState (fun _ => ?_) member live)
      exact ⟨rfl, foundLive, rfl, fun _ => mem_buffer_of_mem changes⟩

theorem guards_of_write
    {records : RecordTransaction} {context : SecurityContext} {table : TableDef}
    {write : RecordWrite} {key : Bytes}
    (stepped : step state (.write session.id records context table write) = some next)
    (found : state.live? session.id = some session)
    (written : key ∈ (runWrite session.transaction records context table
      write).2.transaction.pending) :
    Guards session.id key session.transaction.base[key]? next := by
  obtain ⟨again, foundAgain, rfl⟩ := step_write stepped
  rw [found] at foundAgain
  cases foundAgain
  intro other member sameId live
  rcases MemoryStore.State.mem_replace member with rfl | ⟨_, different⟩
  · refine ⟨written, ?_⟩
    obtain ⟨changes, buffered⟩ :=
      (write.buffers records context table).changes ⟨session.transaction, 0⟩
    simp only [runWrite]
    rw [buffered]
    rfl
  · exact absurd sameId different

theorem guards_of_step
    {event : Event} {id : Nat} {key : Bytes} {held : Option Bytes}
    (notBegun : event ≠ .store (.begin id))
    (stepped : step state event = some next)
    (guards : Guards id key held state) :
    Guards id key held next := by
  intro session member sameId live
  subst sameId
  rcases continues_of_step stepped member live with
    begun | ⟨before, inState, continues⟩
  · exact absurd begun notBegun
  · obtain ⟨written, unchanged⟩ := guards before inState continues.id continues.live
    refine ⟨continues.pending key written, ?_⟩
    rw [MemoryStore.Transaction.base, ← continues.snapshot]
    exact unchanged

/--
No update is lost.  When a transaction with a successful conditional write on a
key that it had not written commits, the committed row under that key is the
one that the write expected.
-/
theorem committed_row_expected
    {builder : TableBuilder} {table : TableDef}
    (built : builder.build = .ok table)
    {front between : List Event}
    {before started finished after : MemoryStore.State}
    {session : MemoryStore.Session} {records : RecordTransaction}
    {context : SecurityContext} {write : ConditionalWrite}
    {version : Option Nat} (reached : LabelledRun step .new front before)
    (found : before.live? session.id = some session)
    (unwritten : rowKey table (write.primaryKey table) ∉
      session.transaction.pending)
    (succeeded : (runWrite session.transaction records context table
      write.toRecordWrite).1 = .ok ())
    (wrote : step before (.write session.id records context table
      write.toRecordWrite) = some started)
    (went : LabelledRun step started between finished)
    (sameTransaction : .store (.begin session.id) ∉ between)
    (committed : MemoryStore.step finished (.commit session.id) =
      some (after, .commit (.committed version))) :
    ∃ row, readRowUnchecked
          (RecordState.begin finished.shared.committed).transaction table
          (write.primaryKey table) = .ok (some row) ∧
        (row == write.expected) = true := by
  have wellFormed := TableBuilder.build_wellFormed built
  let key := rowKey table (write.primaryKey table)
  have ran : (write.toRecordWrite.operation records context table).run
      ⟨session.transaction, 0⟩ =
      (.ok (), (runWrite session.transaction records context table
        write.toRecordWrite).2) :=
    Prod.ext succeeded rfl
  obtain ⟨row, read, same⟩ := ConditionalWrite.read_of_succeeded ran
  have written := ConditionalWrite.mem_pending_of_succeeded wellFormed ran
  have guards : Guards session.id key session.transaction.base[key]?
      started :=
    guards_of_write wrote found written
  have guarded : Guards session.id key session.transaction.base[key]?
      finished := by
    refine went.invariant_of_labels _ (fun event member state next => ?_) guards
    refine guards_of_step ?_
    rintro rfl
    exact sameTransaction member
  obtain ⟨events, run⟩ : ∃ events, LabelledRun step .new events finished :=
    ⟨_, reached.append (.cons wrote went)⟩
  obtain ⟨trace, traced⟩ := exists_run run
  obtain ⟨last, isLive, agrees⟩ :=
    MemoryStore.committed_eq_base_of_commit traced committed
  obtain ⟨inFinished, sameId, live⟩ := MemoryStore.State.of_live? isLive
  obtain ⟨stillWritten, held⟩ := guarded last inFinished sameId live
  have unchanged : (RecordState.begin finished.shared.committed).transaction.get key =
        session.transaction.get key := by
    rw [RecordState.get_begin, agrees key stillWritten, held,
      MemoryStore.Transaction.get, Std.ExtTreeMap.getElem?_eq_none unwritten]
  refine ⟨row, ?_, same⟩
  rw [readRowUnchecked_congr unchanged]
  exact read

end RecordMachine

/-! ## A conditional update beside another writer -/

section

open RecordMachine

local instance countersPlatform : Platform := asciiPlatform

/-- An account that one transaction inserts and the next one has seen. -/
def seenAccount : Row := ⟨[.i64 1, .i64 10, .i64 20]⟩

/-- The account gets a new phone if it is still as it was seen. -/
def phoneChange : ConditionalWrite := .update ⟨[.i64 1, .i64 11, .i64 20]⟩ seenAccount

/-- A transaction inserts an account and commits, and the next begins. -/
def beforePhoneChange : List Event := [.store (.begin 0),
    .write 0 (.plain ⟨[accounts]⟩) .superuser accounts (.keyed (.insert seenAccount)),
    .store (.commit 0),
    .store (.begin 1)]

/-- Another account is inserted before the change of phone commits. -/
def afterPhoneChange : List Event := [.store (.begin 2),
    .write 2 (.plain ⟨[accounts]⟩) .superuser accounts
      (.keyed (.insert ⟨[.i64 2, .i64 12, .i64 22]⟩)),
    .store (.commit 2)]

/-- What the change of phone finds. -/
def foundByPhoneChange : MemoryStore.State :=
  (beforePhoneChange.foldlM step .new).get (by decide)

/-- The transaction that changes the phone. -/
def phoneChanger : MemoryStore.Session := (foundByPhoneChange.live? 1).get (by decide)

/-- What the change of phone leaves. -/
def leftByPhoneChange : MemoryStore.State :=
  (step foundByPhoneChange (.write 1 (.plain ⟨[accounts]⟩) .superuser accounts
    phoneChange.toRecordWrite)).get (by decide)

/-- What the commit of the new phone finds. -/
def foundByCommit : MemoryStore.State :=
  (afterPhoneChange.foldlM step leftByPhoneChange).get (by decide)

/-- The account that is committed before its phone changes is the one seen. -/
theorem phoneChange_expected :
    ∃ row, readRowUnchecked
          (RecordState.begin foundByCommit.shared.committed).transaction
          accounts [.i64 1] = .ok (some row) ∧
        (row == seenAccount) = true := by
  have built : accountsBuilder.build = .ok accounts := rfl
  have reached : LabelledRun step .new beforePhoneChange foundByPhoneChange :=
    .of_foldlM (Option.eq_some_of_isSome _)
  have sameId : phoneChanger.id = 1 := by decide
  have found : foundByPhoneChange.live? phoneChanger.id = some phoneChanger := by
    rw [sameId]
    exact Option.eq_some_of_isSome _
  have unwritten : rowKey accounts (phoneChange.primaryKey accounts) ∉
        phoneChanger.transaction.pending := by
    decide
  have isOk : (runWrite phoneChanger.transaction (.plain ⟨[accounts]⟩) .superuser
        accounts phoneChange.toRecordWrite).1.isOk = true := by
    decide
  have succeeded : (runWrite phoneChanger.transaction (.plain ⟨[accounts]⟩) .superuser
        accounts phoneChange.toRecordWrite).1 = .ok () := by
    cases outcome : (runWrite phoneChanger.transaction (.plain ⟨[accounts]⟩)
        .superuser accounts phoneChange.toRecordWrite).1 with
    | ok _ => rfl
    | error _ =>
        rw [outcome] at isOk
        cases isOk
  have wrote : step foundByPhoneChange (.write phoneChanger.id (.plain ⟨[accounts]⟩)
        .superuser accounts phoneChange.toRecordWrite) =
        some leftByPhoneChange := by
    rw [sameId]
    exact Option.eq_some_of_isSome _
  have went : LabelledRun step leftByPhoneChange afterPhoneChange
      foundByCommit :=
    .of_foldlM (Option.eq_some_of_isSome _)
  have commits : ∃ after version,
        MemoryStore.step foundByCommit (.commit phoneChanger.id) =
          some (after, .commit (.committed version)) := by
    have answered : (MemoryStore.step foundByCommit (.commit 1)).map Prod.snd =
          some (.commit (.committed (some 3))) := by
      decide
    obtain ⟨⟨after, response⟩, stepped, isResponse⟩ :=
      Option.map_eq_some_iff.mp answered
    cases isResponse
    rw [sameId]
    exact ⟨after, some 3, stepped⟩
  obtain ⟨after, version, committed⟩ := commits
  refine committed_row_expected built reached found unwritten succeeded wrote
    went ?_ committed
  rw [sameId]
  simp [afterPhoneChange]

end

end SlateOrm
