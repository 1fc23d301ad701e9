import Mathlib.Tactic.IntervalCases
import SlateOrm.DatedRows

namespace SlateOrm

open List RecordTransaction Write RecordState RowTurn

/-!
# Timestamps of creation and of change

Every write of the record layer runs as turns of rows that are ready for it, so
that over a whole run a row tells the reading of the clock at which it was
inserted, however often it has been written since, and the reading at which it
was written last.
-/

section

variable
  [Platform]
  {catalog : Catalog}
  {wellFormed : catalog.WellFormed}
  {lives : Bytes → Option (Lifetime Int64)}
  {state after : RecordState}

/-! ## Writes -/

/-- What keeps the turns of a write in agreement with the lives of rows. -/
structure RecordWrite.Steady (records : RecordTransaction)
    (context : SecurityContext) (table : TableDef) (state : RecordState)
    (write : RecordWrite) : Prop where
  fits : write.Fits
  /-- No column of the primary key is assigned. -/
  keys : ∀ filter assignments atMost,
    write = predicate (.updateWhere filter assignments) atMost →
      ∀ assignment ∈ assignments, assignment.1 ∉ table.primaryKey
  /-- No entry of a row that is erased is left behind. -/
  clear : RowTurn.AllClear records (write.turns records context table state) state

variable {row : Row}

namespace Dating

variable
  {table : TableDef}
  (dating : Dating wellFormed lives state)
  (inCatalog : table ∈ catalog.tables)

include dating inCatalog

theorem remembers_of_read
    {primaryKey : List Value} {found : Option Row}
    (read : readRowUnchecked state.transaction table primaryKey = .ok found) :
    table.Remembers (lives (Keys.rowKey table primaryKey)) found := by
  cases found with
  | none =>
      rw [dating.absent table inCatalog primaryKey (get_of_readRowUnchecked_none read)]
      trivial
  | some row =>
      obtain ⟨record, ⟨life, isLife, created⟩, rfl, isKey, isRead⟩ :=
        record_of_readRowUnchecked dating.kept inCatalog read
      rw [← isKey, isLife]
      exact created.read (wellFormed.tables _ inCatalog) isRead

theorem ready_write
    (valid : row.validate table = .ok ())
    (fits : row.Fits) {previous : Option Row}
    (read : readRowUnchecked state.transaction table
      (row.primaryKeyValues table) = .ok previous)
    (verifyUnique : Bool) :
    (RowTurn.write table row previous verifyUnique).Ready catalog lives :=
  ⟨dating.remembers_of_read inCatalog read,
    ⟨table, row, inCatalog, valid, fits⟩, rfl, .refl row⟩

end Dating

variable {rows : List Row}

namespace Dating

variable {table : TableDef}

theorem ready_remove
    {record : CatalogRow catalog} (createdBy : record.CreatedBy lives)
    (isTable : record.table = table)
    (isRead : row.ReadOf table record.row)
    (wellFormed : catalog.WellFormed) :
    (remove table row).Ready catalog lives := by
  subst isTable
  obtain ⟨life, isLife, created⟩ := createdBy
  refine ⟨fun _ => ?_, record, rfl, isRead.same⟩
  have isKey : (remove record.table row).key = record.key :=
    isRead.same.rowKey record.table
  rw [isKey, isLife]
  exact created.read (wellFormed.tables _ record.inCatalog) isRead

variable {doomed : List (TableDef × Row)} {records : RecordTransaction}
  {context : SecurityContext}

theorem ready_removeTurns
    (isCatalog : records.catalog = catalog)
    (dating : Dating wellFormed lives state)
    (isRoot : (remove table row).Ready catalog lives)
    (closed : records.deletionClosure context table row state.transaction =
      .ok doomed) :
    ∀ turn ∈ removeTurns doomed, turn.Ready catalog lives := by
  let removable : TableDef → Row → Prop := fun table row =>
    (remove table row).Ready catalog lives
  have each : ∀ pair ∈ doomed, removable pair.1 pair.2 := by
    refine deletionClosure_forall ?_ isRoot closed
    intro child foreignKey parentKey rows isChild found row member
    rw [isCatalog] at isChild
    obtain ⟨record, createdBy, isTable, isRead⟩ :=
      record_of_referencingRows dating.kept isChild found row member
    exact ready_remove createdBy isTable isRead wellFormed
  intro turn member
  obtain ⟨pair, inDoomed, rfl⟩ := mem_map.mp member
  exact each pair inDoomed

theorem spares_removeTurns
    (wellFormed : catalog.WellFormed)
    (ready : ∀ turn ∈ removeTurns doomed, turn.Ready catalog lives)
    (other : TableDef) (row : Row) :
    ∀ turn ∈ removeTurns doomed, turn.Spares catalog (.remove other row) := by
  intro turn member
  have isReady := ready turn member
  obtain ⟨pair, _, rfl⟩ := mem_map.mp member
  obtain ⟨_, base, isTable, _⟩ := isReady
  exact spares_remove wellFormed (isTable ▸ base.inCatalog) pair.2 other row

theorem remove
    (staysValid : ∀ table ∈ catalog.tables, table.StaysValid)
    (dating : Dating wellFormed lives state)
    (ready : ∀ turn ∈ removeTurns doomed, turn.Ready catalog lives)
    (clear : RowTurn.AllClear records (removeTurns doomed) state)
    (ran : run records (removeTurns doomed) state = (.ok (), after)) :
    Dating wellFormed (livesAfter (events records
      (removeTurns doomed) state) lives) after := by
  refine dating_run staysValid ready ?_ clear ran dating
  refine pairwise_of_forall_mem_list (fun first member second isTurn => ?_)
  obtain ⟨pair, _, rfl⟩ := mem_map.mp isTurn
  exact spares_removeTurns wellFormed ready pair.1 pair.2 first member

/-- Deletions one after the other keep the store in agreement with its rows. -/
theorem deleteTurns
    (staysValid : ∀ table ∈ catalog.tables, table.StaysValid)
    (isCatalog : records.catalog = catalog)
    (dating : Dating wellFormed lives state)
    (ready : ∀ row ∈ rows, (RowTurn.remove table row).Ready catalog lives)
    (clear : RowTurn.AllClear records
      (records.deleteTurns context table rows state) state)
    (ran : run records (records.deleteTurns context table rows
      state) state = (.ok (), after)) :
    Dating wellFormed (livesAfter (events records
      (records.deleteTurns context table rows state) state) lives)
      after := by
  induction rows generalizing state lives with
  | nil =>
      cases ran
      exact dating
  | cons row rest ih =>
      obtain ⟨isRoot, others⟩ := forall_mem_cons.mp ready
      rw [deleteTurns] at clear ran ⊢
      cases closed : records.deletionClosure context table row state.transaction with
      | error error =>
          rw [closed] at ran
          cases ran
          exact dating
      | ok doomed =>
          rw [closed, ofCheck] at clear ran
          rw [ofCheck]
          obtain ⟨between, removed, ranRest⟩ := run_append_eq_ok.mp ran
          rw [removed] at clear ranRest ⊢
          obtain ⟨clearFirst, clearRest⟩ := allClear_append removed clear
          have readyFirst := dating.ready_removeTurns isCatalog isRoot closed
          have dated := dating.remove staysValid readyFirst clearFirst removed
          rw [events_append removed]
          have leads : livesAfter (events records (removeTurns doomed)
                state ++ events records
                  (records.deleteTurns context table rest between) between)
              lives =
              livesAfter (events records
                (records.deleteTurns context table rest between) between)
                (livesAfter (events records (removeTurns doomed) state) lives) := by
            funext key
            exact foldl_append
          rw [leads]
          refine ih dated (fun other member => ?_) clearRest ranRest
          exact ready_after (spares_removeTurns wellFormed readyFirst table
            other) (others other member) state

end Dating

section

variable
  {records : RecordTransaction}
  {wellFormed : records.catalog.WellFormed}
  {context : SecurityContext}
  {table : TableDef}

theorem Dating.single
    (staysValid : ∀ table ∈ records.catalog.tables, table.StaysValid)
    (inCatalog : table ∈ records.catalog.tables)
    (valid : row.validate table = .ok ())
    (fits : row.Fits) {previous : Option Row}
    (read : readRowUnchecked state.transaction table
      (row.primaryKeyValues table) = .ok previous)
    (dating : Dating wellFormed lives state)
    (ran : run records [.write table row previous true] state =
      (.ok (), after)) :
    Dating wellFormed (livesAfter (events records
      [.write table row previous true] state) lives) after := by
  refine dating_run staysValid ?_ (pairwise_singleton _ _) ⟨trivial, trivial⟩ ran dating
  intro turn member
  rw [mem_singleton.mp member]
  exact dating.ready_write inCatalog valid fits read true

theorem RowTurn.allClear_of_writes
    {turns : List RowTurn}
    (writes : ∀ turn ∈ turns, ∃ table row previous verifyUnique,
      turn = .write table row previous verifyUnique)
    (state : RecordState) :
    AllClear records turns state := by
  induction turns generalizing state with
  | nil => trivial
  | cons turn rest ih =>
      obtain ⟨⟨_, _, _, _, rfl⟩, others⟩ := forall_mem_cons.mp writes
      exact ⟨trivial, ih others _⟩

section

variable
  (staysValid : ∀ table ∈ records.catalog.tables, table.StaysValid)
  (inCatalog : table ∈ records.catalog.tables)

include staysValid inCatalog

/-- A batch over what has been read under its keys. -/
theorem Dating.bulk
    {mode : BulkMode}
    (fits : ∀ row ∈ rows, row.Fits)
    (dating : Dating wellFormed lives state)
    (ran : run records (records.bulkTurns context table rows mode
      state.transaction) state = (.ok (), after)) :
    Dating wellFormed (livesAfter (events records
      (records.bulkTurns context table rows mode state.transaction) state)
      lives) after := by
  rw [bulkTurns] at ran ⊢
  cases passed : records.checkMany context table rows mode state.transaction with
  | error error =>
      rw [passed] at ran
      cases ran
      exact dating
  | ok existing =>
      rw [passed, ofCheck] at ran
      rw [ofCheck]
      have checked := checked_of_checkMany passed
      obtain ⟨each, apart⟩ := checkBulkKeys_spec checked.keys
      obtain ⟨sameLength, reads⟩ := readRows_spec checked.read
      refine dating_run staysValid ?_ ?_ (allClear_of_writes ?_ state) ran dating
      · intro turn member
        obtain ⟨pair, inBatch, rfl⟩ := mem_map.mp member
        have inRows := (of_mem_zip inBatch).1
        exact dating.ready_write inCatalog (each pair.1 inRows).1
          (fits pair.1 inRows) (reads pair inBatch) false
      · have isRows : (rows.zip existing).map Prod.fst = rows :=
          map_fst_zip (Nat.le_of_eq sameLength.symm)
        rw [← isRows, pairwise_map] at apart
        rw [pairwise_map]
        exact apart.imp (fun differs => spares_of_ne differs)
      · intro turn member
        obtain ⟨pair, _, rfl⟩ := mem_map.mp member
        exact ⟨_, _, _, _, rfl⟩

/-- A write of named rows keeps the store in agreement with its rows. -/
theorem Dating.keyed
    {write : KeyedWrite}
    (fits : ∀ row ∈ write.rows, row.Fits)
    (dating : Dating wellFormed lives state)
    (ran : (write.operation records context table).run state = (.ok (), after)) :
    Dating wellFormed (livesAfter (events records
      (write.turns records context table state.transaction) state) lives)
      after := by
  cases write with
  | insert row =>
      obtain ⟨_, checked, written⟩ := run_reading_bind_eq_ok.mp ran
      obtain ⟨valid, read⟩ := checkInsert_spec checked
      rw [KeyedWrite.turns, checked]
      exact dating.single staysValid inCatalog valid
        (fits row (mem_singleton.mpr rfl)) read (run_singleton written)
  | update row =>
      obtain ⟨_, checked, written⟩ := run_reading_bind_eq_ok.mp ran
      obtain ⟨valid, read⟩ := checkUpdate_spec checked
      rw [KeyedWrite.turns, checked]
      exact dating.single staysValid inCatalog valid
        (fits row (mem_singleton.mpr rfl)) read (run_singleton written)
  | upsert row =>
      obtain ⟨_, checked, written⟩ := run_reading_bind_eq_ok.mp ran
      obtain ⟨valid, read⟩ := checkUpsert_spec checked
      rw [KeyedWrite.turns, checked]
      exact dating.single staysValid inCatalog valid
        (fits row (mem_singleton.mpr rfl)) read (run_singleton written)
  | updateIfUnchanged row expected =>
      obtain ⟨_, checked, written⟩ := run_reading_bind_eq_ok.mp ran
      have read := readRowUnchecked_of_visibleRow
        (checkUpdateIfUnchanged_spec checked).1
      rw [KeyedWrite.turns, checked]
      exact dating.single staysValid inCatalog (validate_of_checkUpdateIfUnchanged
        checked) (fits row (mem_singleton.mpr rfl)) read (run_singleton written)
  | insertMany rows
  | upsertMany rows
  | updateMany rows => exact dating.bulk staysValid inCatalog fits (run_bulkTurns ran)

end

variable {assignments : List (Ordinal × Scalar)}

theorem RecordTransaction.validate_of_updateMatched
    {updated : List Row}
    (ran : (collect (records.updateMatched context table assignments)
      rows).run state = (.ok updated, after)) :
    ∀ row ∈ rows, (assigned assignments row).validate table = .ok () := by
  induction rows generalizing state updated with
  | nil => exact fun _ member => absurd member not_mem_nil
  | cons row rest ih =>
      obtain ⟨_, between, first, ran⟩ := run_bind_eq_ok.mp ran
      obtain ⟨_, _, ranRest, isAfter⟩ := run_bind_eq_ok.mp ran
      cases isAfter
      obtain ⟨_, checked, _⟩ := run_reading_bind_eq_ok.mp first
      obtain ⟨_, valid, _⟩ := bind_eq_ok.mp checked
      exact forall_mem_cons.mpr ⟨liftSchema_eq_ok.mp valid, ih ranRest⟩

section

variable
  (staysValid : ∀ table ∈ records.catalog.tables, table.StaysValid)
  (inCatalog : table ∈ records.catalog.tables)

include staysValid inCatalog

/-- An update by predicate that leaves rows under their keys. -/
theorem Dating.updateWhere
    (fits : ∀ assignment ∈ assignments, assignment.2.Fits)
    (outside : ∀ assignment ∈ assignments, assignment.1 ∉ table.primaryKey)
    {filter : Expr} {atMost : Option Nat} {matched updated : List Row}
    (checked : records.checkUpdateWhere context table filter assignments
      atMost state.transaction = .ok matched)
    (dating : Dating wellFormed lives state)
    (ran : (collect (records.updateMatched context table assignments)
      matched).run state = (.ok updated, after)) :
    Dating wellFormed (livesAfter (events records
      (updateTurns table assignments matched) state) lives)
      after := by
  have valid := validate_of_updateMatched ran
  have found : matched = [] ∨ records.matchingRows context table filter atMost
      state.transaction = .ok matched := by
    replace checked := ok_of_bind checked
    replace checked := ok_of_bind checked
    split at checked
    · cases checked
      exact .inl rfl
    · replace checked := ok_of_bind checked
      exact .inr checked
  refine dating_run staysValid ?_ ?_ (allClear_of_writes ?_ state)
    (run_updateTurns ran) dating
  · intro turn member
    obtain ⟨existing, inMatched, rfl⟩ := mem_map.mp member
    rcases found with rfl | found
    · cases inMatched
    obtain ⟨record, ⟨life, isLife, created⟩, rfl, isRead⟩ :=
      record_of_matchingRows dating.kept inCatalog found existing inMatched
    refine ⟨?_, ⟨record.table, _, inCatalog, valid existing inMatched,
      fits_assigned fits (isRead.same.fits record.fits)⟩, rfl, .refl _⟩
    have isKey : (RowTurn.write record.table
        (assigned assignments existing) (some existing)
        true).key = record.key := by
      rw [key, primaryKeyValues_assigned outside]
      exact isRead.same.rowKey record.table
    rw [isKey, isLife]
    exact created.read (wellFormed.tables _ inCatalog) isRead
  · refine pairwise_of_forall_mem_list (fun first isFirst second isTurn => ?_)
    obtain ⟨existing, _, rfl⟩ := mem_map.mp isFirst
    obtain ⟨other, _, rfl⟩ := mem_map.mp isTurn
    exact spares_write _ _ _ _ _ _ _ _
  · intro turn member
    obtain ⟨existing, _, rfl⟩ := mem_map.mp member
    exact ⟨_, _, _, _, rfl⟩

theorem Dating.purge
    {instant : Int64} {atMost : Option Nat}
    (dating : Dating wellFormed lives state)
    (clear : RowTurn.AllClear records (records.purgeTurns context table
      instant atMost state.transaction) state)
    (ran : run records (records.purgeTurns context table instant
      atMost state.transaction) state = (.ok (), after)) :
    Dating wellFormed (livesAfter (events records
      (records.purgeTurns context table instant atMost state.transaction)
      state) lives) after := by
  have erases : ∀ turn ∈ records.purgeTurns context table instant atMost
      state.transaction, ∃ row, turn = .erase table row := by
    intro turn member
    rw [purgeTurns] at member
    split at member
    · cases member
    · rw [ofCheck.eq_def] at member
      split at member
      · obtain ⟨row, _, rfl⟩ := mem_map.mp member
        exact ⟨row, rfl⟩
      · cases member
  refine dating_run staysValid ?_ ?_ clear ran dating
  · intro turn member
    obtain ⟨row, rfl⟩ := erases turn member
    exact inCatalog
  · refine pairwise_of_forall_mem_list (fun first _ second isTurn => ?_)
    obtain ⟨row, rfl⟩ := erases second isTurn
    exact fun _ _ _ ready => ready

/-- Every steady write keeps the store in agreement with its rows. -/
theorem Dating.recordWrite
    {write : RecordWrite} (steady : write.Steady records context table state)
    (dating : Dating wellFormed lives state)
    (ran : (write.operation records context table).run state = (.ok (), after)) :
    Dating wellFormed (livesAfter (events records
      (write.turns records context table state) state) lives) after := by
  have clear := steady.clear
  have turns := RecordWrite.run_turns ran
  cases write with
  | keyed write => exact dating.keyed staysValid inCatalog steady.fits ran
  | predicate write atMost =>
      obtain ⟨_, _, ran, isAfter⟩ := run_bind_eq_ok.mp ran
      cases isAfter
      cases write with
      | deleteWhere filter =>
          obtain ⟨rows, checked, _⟩ := run_reading_bind_eq_ok.mp ran
          rw [RecordWrite.turns, checked] at clear turns ⊢
          refine dating.deleteTurns staysValid rfl (fun row member => ?_) clear turns
          obtain ⟨_, _, found⟩ := bind_eq_ok.mp checked
          obtain ⟨record, createdBy, isTable, isRead⟩ :=
            record_of_matchingRows dating.kept inCatalog found row member
          exact Dating.ready_remove createdBy isTable isRead wellFormed
      | updateWhere filter assignments =>
          obtain ⟨rows, checked, collected⟩ := run_reading_bind_eq_ok.mp ran
          rw [RecordWrite.turns, checked]
          exact dating.updateWhere staysValid inCatalog steady.fits
            (steady.keys filter assignments atMost rfl) checked collected
  | delete primaryKey =>
      obtain ⟨_, _, ran, isAfter⟩ := run_bind_eq_ok.mp ran
      cases isAfter
      obtain ⟨found, checked, _⟩ := run_reading_bind_eq_ok.mp ran
      rw [RecordWrite.turns, checked] at clear turns ⊢
      refine dating.remove staysValid ?_ clear turns
      replace checked := ok_of_bind checked
      obtain ⟨existing, visible, checked⟩ := bind_eq_ok.mp checked
      cases existing with
      | none =>
          cases checked
          exact fun _ member => absurd member not_mem_nil
      | some row =>
          obtain ⟨doomed, closed, isDoomed⟩ := bind_eq_ok.mp checked
          cases isDoomed
          obtain ⟨record, createdBy, isTable, _, isRead⟩ := record_of_readRowUnchecked
            dating.kept inCatalog (readRowUnchecked_of_visibleRow visible)
          exact dating.ready_removeTurns rfl
            (Dating.ready_remove createdBy isTable isRead wellFormed) closed
  | deleteIfUnchanged primaryKey expected =>
      obtain ⟨doomed, checked, _⟩ := run_reading_bind_eq_ok.mp ran
      rw [RecordWrite.turns, checked] at clear turns ⊢
      refine dating.remove staysValid ?_ clear turns
      obtain ⟨_, row, visible, _, closed⟩ := checkDeleteIfUnchanged_spec checked
      obtain ⟨record, createdBy, isTable, _, isRead⟩ := record_of_readRowUnchecked
        dating.kept inCatalog (readRowUnchecked_of_visibleRow visible)
      exact dating.ready_removeTurns rfl
        (Dating.ready_remove createdBy isTable isRead wellFormed) closed
  | purgeDeleted instant atMost => exact dating.purge staysValid inCatalog clear turns

end

end

/-! ## Runs -/

/-- What keeps a call in agreement with the lives of rows. -/
def Call.Steady (state : RecordState) : Call → Prop
  | write records context table asked => asked.Steady records context table state
  | commit => True

/-- The managed columns of every row tell its life. -/
structure StampsExact (catalog : Catalog)
    (events : List (LifeEvent Bytes Int64)) (snapshot : Snapshot) :
    Prop where
  /-- A row that is stored was inserted and last written when it says. -/
  stored : ∀ table ∈ catalog.tables, ∀ primaryKey body,
    snapshot.get (Keys.rowKey table primaryKey) = some body →
      ∃ row life, body = encodeBody table row ∧
        LivesSince events (Keys.rowKey table primaryKey) life ∧
        row.Dated table life
  /-- A row that is read was inserted and last written when it says. -/
  read : ∀ table ∈ catalog.tables, ∀ primaryKey row,
    readRowUnchecked snapshot table primaryKey = .ok (some row) →
      ∃ life, LivesSince events (Keys.rowKey table primaryKey) life ∧
        row.Dated table life
  /-- What is not stored was never written, or was erased since. -/
  absent : ∀ table ∈ catalog.tables, ∀ primaryKey,
    snapshot.get (Keys.rowKey table primaryKey) = none →
      lifetime events (Keys.rowKey table primaryKey) = none

theorem Dating.of_empty :
    Dating wellFormed (fun _ => none) (.begin ∅) := by
  have nothing (key : Bytes) : (begin ∅).transaction.get key = none := by
    rw [get_begin, Std.ExtTreeMap.getElem?_empty]
  refine ⟨fun key value found => ?_, fun _ _ primaryKey _ found => ?_,
    fun _ _ _ _ => rfl⟩
  · rw [Catalog.view] at found
    split at found
    · rw [nothing] at found
      cases found
    · cases found
  · rw [nothing] at found
    cases found

theorem Dating.call
    (staysValid : ∀ table ∈ catalog.tables, table.StaysValid)
    {call : Call} (onCatalog : call.On catalog) (steady : call.Steady state)
    (dating : Dating wellFormed lives state)
    (stepped : call.step state = some after) :
    Dating wellFormed (livesAfter (call.events state) lives)
      after := by
  cases call with
  | write records context table write =>
      obtain ⟨rfl, inCatalog⟩ := onCatalog
      rw [Call.step] at stepped
      split at stepped
      · next ran =>
          cases stepped
          exact dating.recordWrite staysValid inCatalog steady ran
      · cases stepped
  | commit => exact dating.congr (funext (Call.get_commit stepped))

theorem Dating.run
    (staysValid : ∀ table ∈ catalog.tables, table.StaysValid)
    {calls : List Call} (run : LabelledRun Call.step state calls after)
    (steady : LabelledRun.Along Call.step
      (fun state call => call.On catalog ∧ call.Steady state) state calls)
    (dating : Dating wellFormed lives state) :
    Dating wellFormed (livesAfter (Call.history state calls) lives)
      after := by
  induction run generalizing lives with
  | nil _ => exact dating
  | @cons first middle last call rest stepped _ ih =>
      obtain ⟨⟨onCatalog, isSteady⟩, onward⟩ :=
        (LabelledRun.along_cons stepped).mp steady
      have dated := ih onward (dating.call staysValid onCatalog isSteady stepped)
      have leads : livesAfter (Call.history first (call :: rest)) lives =
          livesAfter (Call.history middle rest)
            (livesAfter (call.events first) lives) := by
        funext key
        rw [Call.history, stepped]
        exact foldl_append
      rw [leads]
      exact dated

theorem Dating.stampsExact
    {events : List (LifeEvent Bytes Int64)}
    (dating : Dating wellFormed (lifetime events) state) :
    StampsExact catalog events state.transaction := by
  refine ⟨?_, ?_, dating.absent⟩
  · intro table inCatalog primaryKey body found
    obtain ⟨record, rfl, isKey, rfl, life, isLife, dated⟩ :=
      dating.rows table inCatalog primaryKey body found
    rw [isKey] at isLife
    exact ⟨record.row, life, rfl, livesSince_of_lifetime isLife, dated⟩
  · intro table inCatalog primaryKey row read
    rw [readRowUnchecked] at read
    split at read
    · cases read
    · next body found =>
        obtain ⟨row', decodes, isRow⟩ := bind_eq_ok.mp read
        cases isRow
        obtain ⟨record, rfl, isKey, rfl, life, isLife, dated⟩ :=
          dating.rows table inCatalog primaryKey body found
        have tableWellFormed := wellFormed.tables _ inCatalog
        have isRead := readOf_of_decodeRowColumns tableWellFormed record.valid
          record.fits (canonical_of_rowKey wellFormed isKey) (fun _ _ => rfl)
          (liftSchema_eq_ok.mp decodes)
        rw [isKey] at isLife
        exact ⟨life, livesSince_of_lifetime isLife, dated.read tableWellFormed isRead⟩

/--
Whatever a caller does from an empty store, whatever values it supplies for
managed columns and whatever the clock shows: while timestamps cannot make a row
invalid, no update by predicate assigns a column of a primary key and no erased
row leaves entries behind, every row tells when it was inserted and when it was
last written.
-/
theorem stampsExact_of_calls
    {tables : List TableDef}
    (built : ∀ table ∈ tables, ∃ builder : TableBuilder, builder.build = .ok table)
    {catalog : Catalog}
    (made : Catalog.fromTables tables = .ok catalog)
    (staysValid : ∀ table ∈ catalog.tables, table.StaysValid)
    {calls : List Call}
    (steady : LabelledRun.Along Call.step
      (fun state call => call.On catalog ∧ call.Steady state)
      (.begin ∅) calls)
    {state : RecordState} (run : LabelledRun Call.step (.begin ∅) calls state) :
    StampsExact catalog (Call.history (.begin ∅) calls)
      state.transaction := by
  have wellFormed := Catalog.wellFormed_of_fromTables built made
  have dating : Dating wellFormed (fun _ => none) (.begin ∅) := .of_empty
  have dated := dating.run staysValid run steady
  exact dated.stampsExact

end

/-! ## Drafts -/

/-- Transactions over a catalog whose clock counts its readings. -/
def RecordTransaction.counting (catalog : Catalog) : RecordTransaction :=
  { plain catalog with clock := Int64.ofNat }

section

local instance draftsPlatform : Platform := asciiPlatform

/-- A table of drafts that tell when they were made and changed. -/
def draftsBuilder : TableBuilder where
  id := 1
  name := "drafts"
  columns := [
    { name := "id", type := .i64 },
    { name := "made_at", type := .i64, managed := some .createdAt },
    { name := "changed_at", type := .i64, managed := some .updatedAt }]
  primaryKey := ["id"]

/-- The table that the builder makes. -/
def drafts : TableDef where
  id := 1
  name := "drafts"
  columns := draftsBuilder.columns.map ColumnSpec.toColumn
  primaryKey := [0]
  bodyColumns := [1, 2]
  storedColumns := [1, 2]
  indexes := []
  checks := []
  foreignKeys := []
  tenantColumn := none
  softDelete := none
  schemaVersion := 0

/-- A write to the drafts. -/
def draftCall (write : RecordWrite) : Call :=
  .write (.counting ⟨[drafts]⟩) .superuser drafts write

theorem built_drafts :
    ∀ table ∈ [drafts], ∃ builder : TableBuilder, builder.build = .ok table := by
  intro table member
  rw [mem_singleton.mp member]
  exact ⟨draftsBuilder, rfl⟩

theorem staysValid_drafts :
    ∀ table ∈ (⟨[drafts]⟩ : Catalog).tables, table.StaysValid := by
  intro table member
  rw [mem_singleton.mp member]
  have wellFormed : drafts.WellFormed :=
    TableBuilder.build_wellFormed (show draftsBuilder.build = .ok drafts from rfl)
  have allLive : ∀ column ∈ drafts.columns, column.isDropped = false := by
    decide
  intro row stamps fills valid
  refine validate_refilled wellFormed ?_ ?_ valid fills
  · intro ordinal column _ found
    exact allLive column (mem_of_getElem? found)
  · intro index declared
    cases declared

/-- A draft is made, changed, thrown away and made again, all with false dates. -/
def draftCalls : List Call :=
  [draftCall (.keyed (.insert ⟨[.i64 1, .i64 70, .i64 80]⟩)),
    draftCall (.keyed (.upsert ⟨[.i64 1, .i64 71, .i64 81]⟩)),
    draftCall (.predicate (.updateWhere (.eq 0 (.i64 1))
      [(1, .literal (.i64 72))]) none),
    draftCall (.delete [.i64 1]),
    .commit,
    draftCall (.keyed (.insertMany
      [⟨[.i64 1, .i64 73, .i64 83]⟩, ⟨[.i64 2, .i64 74, .i64 84]⟩]))]

/-- Whether the turns of a call are in tables without indexes. -/
def Call.unindexed (state : RecordState) : Call → Bool
  | write records context table asked =>
      (asked.turns records context table state).all
        (fun turn => turn.table.indexes.isEmpty)
  | commit => true

theorem RowTurn.allClear_of_unindexed
    {records : RecordTransaction} {turns : List RowTurn}
    (unindexed : turns.all (fun turn => turn.table.indexes.isEmpty) = true)
    (state : RecordState) :
    AllClear records turns state := by
  induction turns generalizing state with
  | nil => trivial
  | cons turn rest ih =>
      rw [all_cons, Bool.and_eq_true] at unindexed
      refine ⟨?_, ih unindexed.2 _⟩
      have noIndexes := isEmpty_iff.mp unindexed.1
      have owned (snapshot : Snapshot) (row : Row) :
          OwnsEntries snapshot turn.table row := by
        intro index declared
        rw [noIndexes] at declared
        cases declared
      cases turn with
      | write table row previous verifyUnique => trivial
      | remove table row => exact fun _ => owned _ row
      | erase table row => exact owned _ row

/-- Each call is steady. -/
theorem steady_draftCalls :
    LabelledRun.Along Call.step
      (fun state call => call.On ⟨[drafts]⟩ ∧ call.Steady state)
      (.begin ∅) draftCalls := by
  have onCatalog : ∀ call ∈ draftCalls, call.On ⟨[drafts]⟩ := by
    simp [draftCalls, draftCall, Call.On, counting, plain]
  have unindexed : ∀ count < 6,
      ((draftCalls.take count).foldlM Call.step (.begin ∅)).all (fun state =>
        draftCalls[count]?.all (Call.unindexed state)) = true := by
    decide
  refine LabelledRun.along_of_taken (fun count call isCall state taken =>
    ⟨onCatalog call (mem_of_getElem? isCall), ?_⟩)
  have inCalls : count < 6 := (List.getElem?_eq_some_iff.mp isCall).1
  have clear := unindexed count inCalls
  rw [Option.mem_def.mp taken, isCall] at clear
  change Call.unindexed state call = true at clear
  interval_cases count
  all_goals cases isCall
  · refine ⟨?_, ?_, allClear_of_unindexed clear state⟩
    · simp [RecordWrite.Fits, KeyedWrite.rows, Row.Fits, Value.fits]
    · rintro _ _ _ ⟨⟩
  · refine ⟨?_, ?_, allClear_of_unindexed clear state⟩
    · simp [RecordWrite.Fits, KeyedWrite.rows, Row.Fits, Value.fits]
    · rintro _ _ _ ⟨⟩
  · refine ⟨?_, ?_, allClear_of_unindexed clear state⟩
    · simp [RecordWrite.Fits, Scalar.Fits, Scalar.evaluate, Value.fits]
    · rintro _ _ _ ⟨⟩
      decide
  · refine ⟨trivial, ?_, allClear_of_unindexed clear state⟩
    rintro _ _ _ ⟨⟩
  · trivial
  · refine ⟨?_, ?_, allClear_of_unindexed clear state⟩
    · simp [RecordWrite.Fits, KeyedWrite.rows, Row.Fits, Value.fits]
    · rintro _ _ _ ⟨⟩

/-- The drafts tell when they were made, whatever was said of it. -/
theorem stampsExact_drafts :
    ∃ state, LabelledRun Call.step (.begin ∅) draftCalls state ∧
      StampsExact ⟨[drafts]⟩ (Call.history (.begin ∅) draftCalls)
        state.transaction := by
  have made : Catalog.fromTables [drafts] = .ok ⟨[drafts]⟩ := rfl
  have taken : (draftCalls.foldlM Call.step (.begin ∅)).isSome = true := by
    decide
  have run : LabelledRun Call.step (.begin ∅) draftCalls
      ((draftCalls.foldlM Call.step (.begin ∅)).get taken) :=
    .of_foldlM (Option.eq_some_of_isSome _)
  exact ⟨_, run, stampsExact_of_calls built_drafts made staysValid_drafts
    steady_draftCalls run⟩

/-- Two drafts are made, and the first is moved onto the second. -/
def movedDraft : List Call := [draftCall (.keyed (.insert ⟨[.i64 1, .i64 0, .i64 0]⟩)),
    draftCall (.keyed (.insert ⟨[.i64 2, .i64 0, .i64 0]⟩)),
    draftCall (.predicate (.updateWhere (.eq 0 (.i64 1))
      [(0, .literal (.i64 2))]) none)]

/-- What is read of the second draft tells the first reading of the clock. -/
def tellsFirst (snapshot : Snapshot) : Bool :=
  match readRowUnchecked snapshot drafts [.i64 2] with
  | .ok (some row) =>
      match row.get 1 with
      | some (.i64 0) => true
      | _ => false
  | _ => false

theorem not_stampsExact_of_tellsFirst
    {snapshot : Snapshot}
    (tells : tellsFirst snapshot = true) :
    ¬StampsExact ⟨[drafts]⟩ (Call.history (.begin ∅) movedDraft)
      snapshot := by
  intro exact_
  rw [tellsFirst] at tells
  split at tells
  · next row read =>
      obtain ⟨life, since, dated⟩ := exact_.read drafts
        (mem_singleton.mpr rfl) [.i64 2] row read
      have told := dated.created 1 _ rfl rfl
      rw [told] at tells
      have isFirst : life.created = 0 := by
        split at tells
        · next same => exact (Value.i64.inj (Option.some.inj same)).trans rfl
        · cases tells
      obtain ⟨earlier, later, parts, _⟩ := since.created
      have written : LifeEvent.wrote (Keys.rowKey drafts [.i64 2]) 0 ∈
          Call.history (.begin ∅) movedDraft := by
        rw [parts, isFirst]
        simp
      revert written
      decide
  · cases tells

end

/--
A draft that is moved onto another with an update by predicate brings its own
time of creation, which the other then tells.
-/
theorem not_stampsExact_movedDraft :
    ¬∀ (_ : Platform) (tables : List TableDef), (∀ table ∈ tables,
        ∃ builder : TableBuilder, builder.build = .ok table) →
      ∀ catalog, Catalog.fromTables tables = .ok catalog →
        ∀ calls : List Call, (∀ call ∈ calls, call.On catalog) →
          ∀ state, LabelledRun Call.step (.begin ∅) calls state →
            StampsExact catalog (Call.history (.begin ∅) calls)
              state.transaction := by
  intro always
  let _ : Platform := asciiPlatform
  have onCatalog : ∀ call ∈ movedDraft, call.On ⟨[drafts]⟩ := by
    simp [movedDraft, draftCall, Call.On, counting,
      plain]
  have tells : tellsFirst ((movedDraft.foldlM Call.step (.begin ∅)).get
      (by decide)).transaction = true := by
    decide
  have run : LabelledRun Call.step (.begin ∅) movedDraft
      ((movedDraft.foldlM Call.step (.begin ∅)).get (by decide)) :=
    .of_foldlM (Option.eq_some_of_isSome _)
  exact not_stampsExact_of_tellsFirst tells (always asciiPlatform [drafts]
    built_drafts ⟨[drafts]⟩ rfl movedDraft onCatalog _ run)

end SlateOrm
