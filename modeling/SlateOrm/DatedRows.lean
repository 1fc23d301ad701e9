import SlateOrm.RowHistory

namespace SlateOrm

open List RecordTransaction Keys RecordState RowTurn

/-!
# Dated rows

A write stamps the managed columns of a row from what it takes for the row under
the same key.  While that is the row which is stored there, every turn of a row
keeps what is stored in agreement with the lives of rows: a row tells the reading
of the clock at which it was inserted and the one at which it was written last.
-/

/-! ## Dated rows -/

namespace Row

/-- The columns for the time of creation all tell one. -/
def CreatedAt (row : Row) (table : TableDef) (instant : Int64) : Prop :=
  ∀ ordinal column, table.column ordinal = some column →
    column.managed = some .createdAt → row.get ordinal = some (.i64 instant)

/-- The managed columns of a row tell its life. -/
structure Dated (row : Row) (table : TableDef) (life : Lifetime Int64) :
    Prop where
  created : row.CreatedAt table life.created
  updated : ∀ ordinal column, table.column ordinal = some column →
    column.managed = some .updatedAt → row.get ordinal = some (.i64 life.updated)

end Row

/-- What is taken for the row under a key tells when its life began. -/
def TableDef.Remembers (table : TableDef) : Option (Lifetime Int64) → Option Row → Prop
  | none, none => True
  | some life, some old => old.CreatedAt table life.created
  | _, _ => False

section

variable
  {table : TableDef}
  (wellFormed : table.WellFormed)

include wellFormed

theorem managed_spec
    {ordinal : Ordinal} {column : ColumnDef}
    (isColumn : table.column ordinal = some column)
    (isManaged : column.managed.isSome = true) :
    column.type = .i64 ∧ ordinal ∉ table.primaryKey := by
  refine ⟨(wellFormed.managed column (mem_of_getElem? isColumn) isManaged).1, ?_⟩
  intro inKey
  obtain ⟨other, isOther, _, _, unmanaged⟩ := wellFormed.key ordinal inKey
  rw [isColumn] at isOther
  cases isOther
  rw [unmanaged] at isManaged
  cases isManaged

/-- A row with its managed columns supplied tells its life. -/
theorem dated_refilled
    {row : Row}
    (width : row.values.length = table.columns.length)
    {life : Option (Lifetime Int64)} {previous : Option Row}
    (remembers : table.Remembers life previous) (records : RecordTransaction)
    (readings : Nat) :
    (row.refilled (records.stampsOf table previous readings)).Dated table
      ⟨(life.map Lifetime.created).getD (records.clock readings),
        records.clock readings⟩ := by
  have stamped {ordinal : Ordinal} {column : ColumnDef} {instant : Int64}
      (isColumn : table.column ordinal = some column)
      (isManaged : column.managed.isSome = true)
      (isStamp : table.managedStamps previous (records.clock readings)
        ordinal = some instant) :
      (row.refilled (records.stampsOf table previous readings)).get ordinal =
        some (.i64 instant) := by
    have inRow : ordinal < row.values.length := by
      rw [width]
      exact (List.getElem?_eq_some_iff.mp isColumn).1
    have hasManaged : table.isManaged = true :=
      any_eq_true.mpr ⟨column, mem_of_getElem? isColumn, isManaged⟩
    rw [Row.get_refilled, stampsOf, if_pos hasManaged,
      isStamp, Row.get, getElem?_eq_getElem inRow]
    rfl
  refine ⟨fun ordinal column isColumn isCreated => ?_,
    fun ordinal column isColumn isUpdated => ?_⟩
  · have isManaged : column.managed.isSome = true := by rw [isCreated]; rfl
    refine stamped isColumn isManaged ?_
    have isTimestamp := (managed_spec wellFormed isColumn isManaged).1
    rw [TableDef.managedStamps, isColumn]
    simp only [isCreated, isTimestamp]
    cases life with
    | none =>
        cases previous with
        | none => rfl
        | some old => cases remembers
    | some life =>
        cases previous with
        | none => cases remembers
        | some old =>
            rw [Option.bind_some, remembers ordinal column isColumn isCreated]
            rfl
  · have isManaged : column.managed.isSome = true := by rw [isUpdated]; rfl
    refine stamped isColumn isManaged ?_
    have isTimestamp := (managed_spec wellFormed isColumn isManaged).1
    rw [TableDef.managedStamps, isColumn]
    simp only [isUpdated, isTimestamp]

variable {row stored : Row}

theorem get_of_readOf
    (isRead : row.ReadOf table stored) {ordinal : Ordinal} {column : ColumnDef}
    (isColumn : table.column ordinal = some column)
    (isManaged : column.managed.isSome = true)
    {instant : Int64}
    (held : stored.get ordinal = some (.i64 instant)) :
    row.get ordinal = some (.i64 instant) := by
  obtain ⟨isTimestamp, outside⟩ := managed_spec wellFormed isColumn isManaged
  have same := isRead.signed ordinal column isColumn isTimestamp outside
  rw [Row.valueOrNull, Row.valueOrNull, held] at same
  cases found : row.get ordinal with
  | none =>
      rw [found] at same
      cases same
  | some value =>
      rw [found] at same
      exact congrArg some same

theorem Row.CreatedAt.read
    {instant : Int64} (created : stored.CreatedAt table instant)
    (isRead : row.ReadOf table stored) :
    row.CreatedAt table instant :=
  fun ordinal column isColumn isCreated =>
    get_of_readOf wellFormed isRead isColumn (by rw [isCreated]; rfl)
      (created ordinal column isColumn isCreated)

theorem Row.Dated.read
    {life : Lifetime Int64} (dated : stored.Dated table life)
    (isRead : row.ReadOf table stored) :
    row.Dated table life :=
  ⟨dated.created.read wellFormed isRead, fun ordinal column isColumn isUpdated =>
      get_of_readOf wellFormed isRead isColumn (by rw [isUpdated]; rfl)
        (dated.updated ordinal column isColumn isUpdated)⟩

end

/-! ## What one row's turn keeps -/

section

variable [Platform]

variable {catalog : Catalog}

/-- Whatever is kept as an entry of a row under some key is one of the row. -/
def RecordTransaction.OwnsEntries (snapshot : Snapshot) (table : TableDef)
    (row : Row) : Prop :=
  ∀ index ∈ table.indexes, ∀ other : Row,
    Keys.rowKey table (other.primaryKeyValues table) =
        Keys.rowKey table (row.primaryKeyValues table) →
      ∀ entry ∈ admittedEntries table index other,
        snapshot.get entry.key = some entry.value →
          ∃ own ∈ admittedEntries table index row, own.key = entry.key

/-- A row of a catalog that tells when the life under its key began. -/
def CatalogRow.CreatedBy (lives : Bytes → Option (Lifetime Int64))
    (record : CatalogRow catalog) : Prop :=
  ∃ life, lives record.key = some life ∧ record.row.CreatedAt record.table life.created

/-- What a store keeps agrees with the lives of its rows. -/
structure Dating (wellFormed : catalog.WellFormed)
    (lives : Bytes → Option (Lifetime Int64)) (state : RecordState) :
    Prop where
  /-- Rows and entries are of rows that live, since the same moment. -/
  kept : (catalog.layout wellFormed).Comprises (CatalogRow.CreatedBy lives)
    (catalog.view state.transaction.get)
  /-- A stored row tells its life. -/
  rows : ∀ table ∈ catalog.tables, ∀ primaryKey body,
    state.transaction.get (Keys.rowKey table primaryKey) = some body →
      ∃ record : CatalogRow catalog,
        record.table = table ∧ record.key = Keys.rowKey table primaryKey ∧
          record.body = body ∧
          ∃ life, lives record.key = some life ∧ record.row.Dated table life
  /-- What is not stored does not live. -/
  absent : ∀ table ∈ catalog.tables, ∀ primaryKey,
    state.transaction.get (Keys.rowKey table primaryKey) = none →
      lives (Keys.rowKey table primaryKey) = none

namespace Dating

variable
  {wellFormed : catalog.WellFormed}
  {lives : Bytes → Option (Lifetime Int64)}
  {state : RecordState}

theorem congr
    {after : RecordState} (dating : Dating wellFormed lives state)
    (same : after.transaction.get = state.transaction.get) :
    Dating wellFormed lives after := by
  refine ⟨?_, ?_, ?_⟩
  · rw [same]
    exact dating.kept
  · rw [same]
    exact dating.rows
  · rw [same]
    exact dating.absent

theorem kept_wrote
    (dating : Dating wellFormed lives state) (written : Bytes)
    (instant : Int64) :
    (catalog.layout wellFormed).Comprises (CatalogRow.CreatedBy (fun key =>
        (LifeEvent.wrote written instant).after key (lives key)))
      (catalog.view state.transaction.get) := by
  intro key value found
  obtain ⟨record, ⟨life, lives, created⟩, image⟩ := dating.kept key value found
  obtain ⟨life', lives', sameMoment⟩ :=
    LifeEvent.created_after_wrote lives written instant
  exact ⟨record, ⟨life', lives', sameMoment ▸ created⟩, image⟩

variable {previous : Option Row}

theorem image_of_mem_rowChanges
    (new : CatalogRow catalog) {change : Change}
    (member : change ∈ rowChanges new.table new.row previous)
    {value : Bytes}
    (isValue : change.2 = some value) :
    (catalog.layout wellFormed).Image new change.1 value := by
  rcases mem_append.mp member with inIndexes | isRow
  · obtain ⟨index, declared, inChanges⟩ := mem_flatMap.mp inIndexes
    rcases mem_append.mp inChanges with dropped | added
    · obtain ⟨entry, _, rfl⟩ := mem_map.mp dropped
      cases isValue
    · obtain ⟨entry, isAdded, rfl⟩ := mem_map.mp added
      cases isValue
      exact .inr ⟨index, declared, entry, (mem_filter.mp isAdded).1, rfl, rfl⟩
  · rw [mem_singleton.mp isRow] at isValue ⊢
    cases isValue
    exact .inl ⟨rfl, rfl⟩

/-- Writing a row in the place of one that is remembered. -/
theorem write
    (staysValid : ∀ table ∈ catalog.tables, table.StaysValid)
    {base : CatalogRow catalog} {row : Row} (same : row.Same base.row)
    (remembers : base.table.Remembers (lives base.key) previous)
    (records : RecordTransaction) (readings : Nat)
    (dating : Dating wellFormed lives state) :
    Dating wellFormed (fun key => (LifeEvent.wrote base.key
        (records.clock readings)).after key (lives key))
      (state.changed (rowChanges base.table
        (records.stamped base.table row previous readings) previous)) := by
  have tableWellFormed := wellFormed.tables base.table base.inCatalog
  have fills := (records.stamps_stampsOf base.table previous readings).fills
  let new : CatalogRow catalog := ⟨base.table, base.row.refilled
      (records.stampsOf base.table previous readings), base.inCatalog,
      staysValid _ base.inCatalog _ _ fills base.valid, base.fits.refilled _⟩
  have isKey : new.key = base.key := by
    rw [CatalogRow.key, CatalogRow.key,
      Row.primaryKeyValues_refilled tableWellFormed fills]
  have sameNew : (records.stamped base.table row previous readings).Same
      new.row := by
    rw [stamped_eq_refilled]
    exact same.refilled _
  have dated : ∃ life, (LifeEvent.wrote base.key
      (records.clock readings)).after new.key (lives new.key) = some life ∧
      new.row.Dated base.table life := by
    rw [isKey, LifeEvent.after, if_pos rfl]
    exact ⟨_, rfl, dated_refilled tableWellFormed
      (Row.width_of_validate base.valid) remembers records readings⟩
  have elsewhere {table : TableDef} {primaryKey : List Value}
      (differs : rowKey table primaryKey ≠ new.key) :
      (state.changed (rowChanges new.table new.row
          previous)).transaction.get (rowKey table primaryKey) =
          state.transaction.get (rowKey table primaryKey) ∧
        (LifeEvent.wrote base.key (records.clock readings)).after
          (rowKey table primaryKey)
          (lives (rowKey table primaryKey)) =
          lives (rowKey table primaryKey) := by
    refine ⟨get_rowChanges_of_ne differs previous state, ?_⟩
    rw [LifeEvent.after, if_neg (isKey ▸ differs.symm)]
  rw [rowChanges_of_same sameNew]
  refine ⟨?_, ?_, ?_⟩
  · refine comprises_changed (dating.kept_wrote _ _) ?_
    intro change member value isValue
    obtain ⟨life, lives', isDated⟩ := dated
    exact ⟨new, ⟨life, lives', isDated.created⟩,
      image_of_mem_rowChanges new member isValue⟩
  · intro table inCatalog primaryKey body found
    by_cases isNew : rowKey table primaryKey = new.key
    · have isLast := lastWrite_rowKey new.table new.row previous
      have sameTable : base.table = table :=
        wellFormed.tableIds _ base.inCatalog _ inCatalog (rowKey_inj isNew).1.symm
      subst sameTable
      rw [isNew, get_changed, CatalogRow.key, isLast] at found
      cases found
      exact ⟨new, rfl, isNew.symm, rfl, dated⟩
    · obtain ⟨sameFound, sameLife⟩ := elsewhere isNew
      rw [sameFound] at found
      obtain ⟨record, isTable, isHome, isBody, life, lives', isDated⟩ :=
        dating.rows table inCatalog primaryKey body found
      refine ⟨record, isTable, isHome, isBody, life, ?_, isDated⟩
      rw [isHome, sameLife, ← isHome, lives']
  · intro table inCatalog primaryKey notFound
    by_cases isNew : rowKey table primaryKey = new.key
    · have isLast := lastWrite_rowKey new.table new.row previous
      rw [isNew, get_changed, CatalogRow.key, isLast] at notFound
      cases notFound
    · obtain ⟨sameFound, sameLife⟩ := elsewhere isNew
      rw [sameFound] at notFound
      rw [sameLife, dating.absent table inCatalog primaryKey notFound]

/-- Erasing a row and all that is kept as its entries. -/
theorem erase
    {table : TableDef}
    (inCatalog : table ∈ catalog.tables)
    {row : Row} (owned : OwnsEntries state.transaction table row)
    (dating : Dating wellFormed lives state) :
    Dating wellFormed (fun key => (LifeEvent.erased
        (rowKey table (row.primaryKeyValues table))).after key (lives key))
      (state.changed (eraseChanges table row)) := by
  have gone : rowKey table (row.primaryKeyValues table) ∈
      (eraseChanges table row).map Prod.fst :=
    mem_map.mpr ⟨_, mem_append_right _ (mem_singleton.mpr rfl),
      rfl⟩
  have elsewhere {other : TableDef} {primaryKey : List Value}
      (differs : rowKey other primaryKey ≠ rowKey table (row.primaryKeyValues table)) :
      rowKey other primaryKey ∉ (eraseChanges table row).map Prod.fst := by
    intro isErased
    obtain ⟨change, member, sameKey⟩ := mem_map.mp isErased
    rcases mem_append.mp member with inIndexes | isRow
    · obtain ⟨index, _, inEntries⟩ := mem_flatMap.mp inIndexes
      obtain ⟨entry, isEntry, rfl⟩ := mem_map.mp inEntries
      have ofIndex := ofIndex_of_mem_admittedEntries isEntry
      rw [show entry.key = _ from sameKey] at ofIndex
      exact not_ofIndex_rowKey _ _ _ ofIndex
    · rw [mem_singleton.mp isRow] at sameKey
      exact differs sameKey.symm
  have lookup {other : TableDef} (inCatalog' : other ∈ catalog.tables)
      (primaryKey : List Value) :
      (state.changed (eraseChanges table row)).transaction.get
          (rowKey other primaryKey) =
        if rowKey other primaryKey = rowKey table (row.primaryKeyValues table) then none
        else state.transaction.get (rowKey other primaryKey) := by
    have owns := Catalog.owns_rowKey inCatalog' primaryKey
    have leads := view_eraseChanges inCatalog row state (rowKey other primaryKey)
    rw [Catalog.view_of_owns owns, Catalog.view_of_owns owns] at leads
    rw [leads]
    by_cases isErased : rowKey other primaryKey =
        rowKey table (row.primaryKeyValues table)
    · rw [if_pos isErased, if_pos (isErased ▸ gone)]
    · rw [if_neg isErased, if_neg (elsewhere isErased)]
  refine ⟨?_, ?_, ?_⟩
  · intro key value found
    rw [view_eraseChanges inCatalog] at found
    split at found
    · cases found
    · next isKept =>
        obtain ⟨record, ⟨life, lives', created⟩, image⟩ := dating.kept key value found
        refine ⟨record, ⟨life, ?_, created⟩, image⟩
        dsimp only
        rw [LifeEvent.after, if_neg]
        · exact lives'
        · intro isErased
          refine isKept ?_
          rcases image with ⟨isHome, _⟩ | indexed
          · have isKey : key = record.key := isHome
            rw [isKey, ← isErased]
            exact gone
          · obtain ⟨index, declared, entry, member, rfl, rfl⟩ := indexed
            have sameTable : table = record.table :=
              wellFormed.tableIds _ inCatalog _ record.inCatalog (rowKey_inj isErased).1
            subst sameTable
            rw [Catalog.view_of_owns (Catalog.owns_of_ofIndex inCatalog
              declared (ofIndex_of_mem_admittedEntries member))] at found
            obtain ⟨own, isOwn, sameKey⟩ := owned index declared record.row
              isErased.symm entry member found
            rw [← sameKey]
            exact mem_map.mpr ⟨(own.key, none), mem_append_left _
              (mem_flatMap.mpr ⟨index, declared, mem_map.mpr ⟨own, isOwn, rfl⟩⟩), rfl⟩
  · intro other inCatalog' primaryKey body found
    rw [lookup inCatalog'] at found
    split at found
    · cases found
    · next differs =>
        obtain ⟨record, isTable, isHome, isBody, life, lives', isDated⟩ :=
          dating.rows other inCatalog' primaryKey body found
        refine ⟨record, isTable, isHome, isBody, life, ?_, isDated⟩
        rw [LifeEvent.after, if_neg (isHome ▸ Ne.symm differs)]
        exact lives'
  · intro other inCatalog' primaryKey notFound
    rw [lookup inCatalog'] at notFound
    rw [LifeEvent.after]
    split
    · rfl
    · next differs =>
        rw [if_neg (Ne.symm differs)] at notFound
        exact dating.absent other inCatalog' primaryKey notFound

end Dating

/-! ## Turns -/

theorem RecordTransaction.changed_of_writeRowWith
    {records : RecordTransaction} {table : TableDef}
    (wellFormed : table.WellFormed)
    {row : Row} {previous : Option Row} {verifyUnique : Bool}
    {state after : RecordState}
    (written : (records.writeRowWith table row previous verifyUnique).run
      state = (.ok (), after)) :
    after = (ticked table state).changed (rowChanges table
      (records.stamped table row previous state.readings) previous) := by
  cases verifyUnique with
  | false =>
      rw [run_writeRowWith_unverified] at written
      cases written
      rfl
  | true =>
      have ran := run_writeRow wellFormed records row previous state
      rw [writeRow, written] at ran
      dsimp only at ran
      split at ran
      · exact congrArg Prod.snd ran
      · cases ran

namespace RowTurn

/-- What a turn may be given while the rows under the keys have some lives. -/
def Ready (catalog : Catalog) (lives : Bytes → Option (Lifetime Int64))
    (turn : RowTurn) : Prop :=
  match turn with
  | write table row previous _ =>
      table.Remembers (lives turn.key) previous ∧
        ∃ base : CatalogRow catalog, base.table = table ∧ row.Same base.row
  | remove table row =>
      (table.softDelete.isSome = true → table.Remembers (lives turn.key) (some row)) ∧
        ∃ base : CatalogRow catalog, base.table = table ∧ row.Same base.row
  | erase table _ => table ∈ catalog.tables

/-- A turn that erases a row erases all that is kept as entries of it. -/
def Clears (snapshot : Snapshot) : RowTurn → Prop
  | write _ _ _ _ => True
  | remove table row =>
      table.softDelete = none → RecordTransaction.OwnsEntries snapshot table row
  | erase table row => RecordTransaction.OwnsEntries snapshot table row

/-- Each turn that erases a row finds all its entries when it comes. -/
def AllClear (records : RecordTransaction) : List RowTurn → RecordState → Prop
  | [], _ => True
  | turn :: rest, state =>
      turn.Clears state.transaction ∧
        AllClear records rest ((turn.operation records).run state).2

theorem allClear_append
    {records : RecordTransaction} {first second : List RowTurn}
    {state between : RecordState}
    (ran : run records first state = (.ok (), between))
    (clear : AllClear records (first ++ second) state) :
    AllClear records first state ∧ AllClear records second between := by
  induction first generalizing state with
  | nil =>
      cases ran
      exact ⟨trivial, clear⟩
  | cons turn rest ih =>
      obtain ⟨_, next, first, ranRest⟩ := Write.run_bind_eq_ok.mp ran
      obtain ⟨clears, clearRest⟩ := clear
      have isNext : ((turn.operation records).run state).2 = next := by
        rw [first]
      rw [isNext] at clearRest
      obtain ⟨clearFirst, clearSecond⟩ := ih ranRest clearRest
      exact ⟨⟨clears, isNext ▸ clearFirst⟩, clearSecond⟩

end RowTurn

variable
  {wellFormed : catalog.WellFormed}
  {lives : Bytes → Option (Lifetime Int64)}
  {state after : RecordState}

/-- A turn of a row keeps the store in agreement with the lives of its rows. -/
theorem Dating.turn
    (staysValid : ∀ table ∈ catalog.tables, table.StaysValid)
    {records : RecordTransaction} {turn : RowTurn}
    (ready : turn.Ready catalog lives) (clears : turn.Clears state.transaction)
    (ran : (turn.operation records).run state = (.ok (), after))
    (dating : Dating wellFormed lives state) :
    Dating wellFormed (fun key => (turn.event records state).after key (lives key))
      after := by
  cases turn with
  | write table row previous verifyUnique =>
      obtain ⟨remembers, base, rfl, same⟩ := ready
      have isKey : (RowTurn.write base.table row previous verifyUnique).key =
          base.key :=
        same.rowKey base.table
      have isAfter := changed_of_writeRowWith
        (wellFormed.tables base.table base.inCatalog) ran
      rw [isKey] at remembers
      rw [event, isKey]
      refine (dating.write staysValid same remembers records state.readings).congr ?_
      rw [isAfter, changed_ticked]
  | remove table row =>
      obtain ⟨remembers, base, rfl, same⟩ := ready
      have tableWellFormed := wellFormed.tables base.table base.inCatalog
      have isKey : (remove base.table row).key = base.key := same.rowKey base.table
      have retirable : Retirable base.table row := by
        refine retirable_of_length tableWellFormed ?_
        rw [← Row.width_of_validate base.valid]
        simpa using congrArg length same
      have removed : after = (records.removal state base.table row).2 := by
        rw [operation, (run_removeRow retirable records state).1] at ran
        exact (congrArg Prod.snd ran).symm
      rw [removed, removal, event]
      cases retires : base.table.softDelete with
      | none => exact dating.erase base.inCatalog (clears retires)
      | some column =>
          have fills := TableDef.fills_retiredStamp retires
            (records.clock state.readings)
          let retired : CatalogRow catalog :=
            ⟨base.table, base.row.refilled (TableDef.retiredStamp column
              (records.clock state.readings)), base.inCatalog,
              staysValid _ base.inCatalog _ _ fills base.valid,
              base.fits.refilled _⟩
          have isRetired : retired.key = base.key := by
            rw [CatalogRow.key, CatalogRow.key,
              Row.primaryKeyValues_refilled tableWellFormed fills]
          have remembersRow : retired.table.Remembers (lives retired.key)
              (some row) := by
            rw [isRetired, ← isKey]
            exact remembers (by rw [retires]; rfl)
          have written := dating.write staysValid
            (same.refilled (TableDef.retiredStamp column
              (records.clock state.readings))) remembersRow records
            (state.readings + 1)
          rw [isRetired, ← isKey] at written
          refine written.congr ?_
          rw [changed_ticked, retired_eq_refilled]
          rfl
  | erase table row =>
      have erased : after = state.changed (eraseChanges table row) := by
        rw [operation, run_eraseRow] at ran
        exact (congrArg Prod.snd ran).symm
      rw [erased]
      exact dating.erase ready clears

namespace RowTurn

/-- A turn after which another one may still be given what it was. -/
def Spares (catalog : Catalog) (first second : RowTurn) : Prop :=
  ∀ records state lives, second.Ready catalog lives → second.Ready catalog
      (fun key => (first.event records state).after key (lives key))

omit [Platform] in
theorem after_event_of_ne
    {turn : RowTurn} {key : Bytes}
    (differs : turn.key ≠ key)
    (records : RecordTransaction) (state : RecordState)
    (life : Option (Lifetime Int64)) :
    (turn.event records state).after key life = life := by
  cases turn with
  | write table row previous verifyUnique => rw [event, LifeEvent.after, if_neg differs]
  | remove table row =>
      rw [event]
      split
      · rw [LifeEvent.after, if_neg differs]
      · rw [LifeEvent.after, if_neg differs]
  | erase table row => rw [event, LifeEvent.after, if_neg differs]

variable {table : TableDef} {records : RecordTransaction} {turns : List RowTurn}

omit [Platform] in
theorem remembers_after_wrote
    {life : Option (Lifetime Int64)} {old : Row}
    (remembers : table.Remembers life (some old)) (key written : Bytes)
    (instant : Int64) :
    table.Remembers ((LifeEvent.wrote written instant).after key life) (some old) := by
  cases life with
  | none => cases remembers
  | some held =>
      obtain ⟨held', lives, sameMoment⟩ :=
        LifeEvent.created_after_wrote rfl written instant
      rw [lives, TableDef.Remembers, sameMoment]
      exact remembers

theorem spares_of_ne
    {first : RowTurn} {row : Row} {previous : Option Row} {verifyUnique : Bool}
    (differs : first.key ≠ (write table row previous verifyUnique).key) :
    first.Spares catalog (write table row previous verifyUnique) := by
  rintro records state lives ⟨remembers, base⟩
  refine ⟨?_, base⟩
  dsimp only
  rw [after_event_of_ne differs]
  exact remembers

theorem spares_write
    (table : TableDef) (row : Row) (previous : Option Row) (verifyUnique : Bool)
    (table' : TableDef) (row' old : Row) (verifyUnique' : Bool) :
    (write table row previous verifyUnique).Spares catalog
      (write table' row' (some old) verifyUnique') := by
  rintro records state lives ⟨remembers, base⟩
  exact ⟨remembers_after_wrote remembers _ _ _, base⟩

theorem spares_remove
    (wellFormed : catalog.WellFormed)
    (inCatalog : table ∈ catalog.tables)
    (row : Row) (table' : TableDef) (row' : Row) :
    (remove table row).Spares catalog (remove table' row') := by
  rintro records state lives ⟨remembers, base, rfl, same⟩
  refine ⟨fun retires => ?_, base, rfl, same⟩
  rw [event]
  split
  · exact remembers_after_wrote (remembers retires) _ _ _
  · next erases =>
      dsimp only
      rw [LifeEvent.after, if_neg]
      · exact remembers retires
      · intro sameKey
        have sameTable := wellFormed.tableIds _ inCatalog _ base.inCatalog
          (rowKey_inj sameKey).1
        rw [← sameTable, erases] at retires
        cases retires

/-- What turns do to lives. -/
def livesAfter (events : List (LifeEvent Bytes Int64))
    (lives : Bytes → Option (Lifetime Int64)) (key : Bytes) :
    Option (Lifetime Int64) :=
  events.foldl (LifeEvent.after key) (lives key)

theorem ready_after
    {other : RowTurn}
    (spared : ∀ turn ∈ turns, turn.Spares catalog other)
    (ready : other.Ready catalog lives) (state : RecordState) :
    other.Ready catalog (livesAfter (events records turns state) lives) := by
  induction turns generalizing lives state with
  | nil => exact ready
  | cons turn rest ih =>
      exact ih (fun other member => spared other (mem_cons_of_mem _ member))
        (spared turn (mem_cons_self ..) records state lives ready) _

theorem dating_run
    (staysValid : ∀ table ∈ catalog.tables, table.StaysValid)
    (ready : ∀ turn ∈ turns, turn.Ready catalog lives)
    (spare : turns.Pairwise (Spares catalog))
    (clear : AllClear records turns state)
    (ran : run records turns state = (.ok (), after))
    (dating : Dating wellFormed lives state) :
    Dating wellFormed (livesAfter (events records turns state) lives)
      after := by
  induction turns generalizing lives state with
  | nil =>
      cases ran
      exact dating
  | cons turn rest ih =>
      obtain ⟨_, between, first, ranRest⟩ := Write.run_bind_eq_ok.mp ran
      obtain ⟨spareFirst, spareRest⟩ := pairwise_cons.mp spare
      obtain ⟨clears, clearRest⟩ := clear
      have isBetween : ((turn.operation records).run state).2 = between := by
        rw [first]
      rw [isBetween] at clearRest
      rw [events, isBetween]
      refine ih (fun other member => ?_) spareRest clearRest ranRest
        (dating.turn staysValid (ready turn (mem_cons_self ..)) clears first)
      exact spareFirst other member records state lives
        (ready other (mem_cons_of_mem _ member))

end RowTurn

end

end SlateOrm
