import SlateOrm.CreatedStamps
import SlateOrm.ReplacedRows

namespace SlateOrm

open List Keys Write RecordState

/-!
# Rows that an update returns

An update by predicate returns each row as it was before its timestamps were
put into it, and goes on to the next.  What is read back under the row's key is
what was written there last, after all of them.
-/

/-- What the last of some rows puts under a key. -/
def lastUnder (table : TableDef) (key : Bytes) : List Row → Option Row
  | [] => none
  | row :: rest =>
      (lastUnder table key rest).or
        (if Keys.rowKey table (row.primaryKeyValues table) = key then
          some row
        else
          none)

variable {rows : List Row}

theorem mem_of_lastUnder
    {table : TableDef} {key : Bytes} {last : Row}
    (isLast : lastUnder table key rows = some last) :
    last ∈ rows ∧ rowKey table (last.primaryKeyValues table) = key := by
  induction rows with
  | nil => cases isLast
  | cons row rest ih =>
      rw [lastUnder, Option.or_eq_some_iff] at isLast
      rcases isLast with inRest | ⟨-, isFirst⟩
      · have ⟨member, isKey⟩ := ih inRest
        exact ⟨mem_cons_of_mem _ member, isKey⟩
      · split at isFirst
        · next isKey =>
            cases isFirst
            exact ⟨mem_cons_self .., isKey⟩
        · cases isFirst

theorem exists_lastUnder
    {table : TableDef} {row : Row}
    (member : row ∈ rows) :
    ∃ last, lastUnder table
      (rowKey table (row.primaryKeyValues table)) rows = some last := by
  induction rows with
  | nil => cases member
  | cons first rest ih =>
      rw [lastUnder]
      rcases mem_cons.mp member with rfl | inRest
      · rw [if_pos rfl]
        cases lastUnder table (rowKey table (row.primaryKeyValues table)) rest with
        | none => exact ⟨row, rfl⟩
        | some last => exact ⟨last, rfl⟩
      · obtain ⟨last, isLast⟩ := ih inRest
        rw [isLast]
        exact ⟨last, rfl⟩

section

variable [Platform]

/-! ## Reading a body under another row's key -/

section

variable
  {table : TableDef}
  (wellFormed : table.WellFormed)
  {row : Row}
  (valid : row.validate table = .ok ())

include wellFormed valid

theorem Row.codes_refilled
    {stamps : Ordinal → Option Int64} (onWrite : table.Stamps stamps) :
    (row.refilled stamps).Codes table := by
  intro ordinal inBody
  obtain ⟨column, isColumn, typed, flat⟩ :=
    Row.codes_of_validate wellFormed valid ordinal inBody
  refine ⟨column, isColumn, ?_⟩
  rw [valueOrNull, get_refilled]
  cases isStamp : stamps ordinal with
  | none =>
      have unstamped : (row.get ordinal).map (fun value => orStamp value none) =
          row.get ordinal :=
        Option.map_id'
      rw [unstamped]
      exact ⟨typed, flat⟩
  | some stamp =>
      have isManaged : column.managed.isSome = true := by
        have isStamped := onWrite ordinal (by rw [isStamp]; rfl)
        rw [TableDef.isStamped, isColumn] at isStamped
        exact isStamped
      have isSigned := (wellFormed.managed column
        (mem_of_getElem? isColumn) isManaged).1
      cases row.get ordinal with
      | none => exact ⟨.inr rfl, rfl⟩
      | some value => exact ⟨.inl (congrArg some isSigned.symm), rfl⟩

/-- A row's columns are read back from a body when that stores them in full. -/
theorem same_fillKey_iff
    (last : Row) :
    Row.Same ⟨fillKey table (row.primaryKeyValues table)
        (last.readInto table.storedColumns table.blank)⟩ row ↔
      (last.project table.storedColumns).map Value.coded =
        (row.project table.storedColumns).map Value.canonical := by
  have width := Row.width_of_validate valid
  have blankWidth : table.blank.length = table.columns.length := length_replicate ..
  have isStored {ordinal : Ordinal} (stored : ordinal ∈ table.storedColumns) :
      Row.valueOrNull ⟨fillKey table (row.primaryKeyValues table)
        (last.readInto table.storedColumns table.blank)⟩ ordinal =
          (last.valueOrNull ordinal).decoded := by
    have inBody : ordinal ∈ table.bodyColumns := by
      rw [← wellFormed.filter_isLive] at stored
      exact (mem_filter.mp stored).1
    have ⟨inRange, outside⟩ := wellFormed.mem_bodyColumns.mp inBody
    rw [valueOrNull_fillKey_of_notMem outside, getElem?_readInto_of_mem
      wellFormed.nodup_storedColumns stored (blankWidth ▸ inRange)]
    rfl
  constructor
  · intro same
    rw [← same.project table.storedColumns, Row.project, Row.project, map_map, map_map]
    refine map_congr_left (fun ordinal stored => ?_)
    rw [Function.comp_apply, Function.comp_apply, isStored stored,
      Value.canonical_decoded]
  · intro agree
    apply Row.same_of_valueOrNull
    · rw [length_fillKey, length_readInto, blankWidth, width]
    · intro ordinal inRange
      rw [length_fillKey, length_readInto, blankWidth] at inRange
      by_cases inKey : ordinal ∈ table.primaryKey
      · exact canonical_valueOrNull_fillKey wellFormed rfl
          (by rw [length_readInto, blankWidth]) inKey
      · by_cases stored : ordinal ∈ table.storedColumns
        · rw [isStored stored, Value.canonical_decoded]
          rw [Row.project, Row.project, map_map, map_map] at agree
          exact map_inj_left.mp agree ordinal stored
        · have inBody : ordinal ∈ table.bodyColumns :=
            wellFormed.mem_bodyColumns.mpr ⟨inRange, inKey⟩
          obtain ⟨column, isColumn, held⟩ :=
            holds_bodyColumns wellFormed valid ordinal inBody
          have isDropped : column.isDropped = true := by
            have isColumn' : table.columns[ordinal]? = some column := isColumn
            by_contra isLive
            refine stored ?_
            rw [← wellFormed.filter_isLive]
            refine mem_filter.mpr ⟨inBody, ?_⟩
            rw [TableDef.isLive, isColumn']
            simpa using isLive
          rw [valueOrNull_fillKey_of_notMem inKey, getElem?_readInto_of_notMem stored,
            held.dropped isDropped, TableDef.blank, getElem?_replicate, if_pos inRange]
          rfl

end

/-! ## What an update writes and returns -/

namespace RecordTransaction

variable
  {records : RecordTransaction}
  {context : SecurityContext}
  {table : TableDef}
  {assignments : List (Ordinal × Scalar)}

theorem updateMatched_spec
    (wellFormed : table.WellFormed)
    {row written : Row} {state between : RecordState}
    (ran : (records.updateMatched context table assignments row).run state =
      (.ok written, between)) :
    (assigned assignments row).validate table = .ok () ∧
      written = conceal (assigned assignments row)
        (records.security.concealed context table) ∧
      between = (ticked table state).changed (rowChanges table
        (records.stamped table (assigned assignments row) (some row)
          state.readings) (some row)) := by
  obtain ⟨_, checked, ran⟩ := run_reading_bind_eq_ok.mp ran
  obtain ⟨_, _, wrote, isBetween⟩ := run_bind_eq_ok.mp ran
  cases isBetween
  obtain ⟨_, valid, -⟩ := bind_eq_ok.mp checked
  refine ⟨liftSchema_eq_ok.mp valid, rfl, ?_⟩
  rw [run_writeRow wellFormed] at wrote
  dsimp only at wrote
  split at wrote
  · cases wrote
    rfl
  · cases wrote

/-- What is put last under a key is what the store holds there. -/
theorem collect_updateMatched_spec
    (wellFormed : table.WellFormed)
    {returned : List Row} {state after : RecordState}
    (ran : (collect (records.updateMatched context table assignments)
      rows).run state = (.ok returned, after)) :
    (∀ row ∈ rows, (assigned assignments row).validate table = .ok ()) ∧
      returned = rows.map (fun row => conceal (assigned assignments row)
        (records.security.concealed context table)) ∧
      ∀ (owner : TableDef) (primaryKey : List Value),
        after.transaction.get (rowKey owner primaryKey) =
          ((lastUnder table (rowKey owner primaryKey)
            ((records.replacements table assignments rows
              state.readings).map Prod.snd)).map (encodeBody table)).or
            (state.transaction.get (rowKey owner primaryKey)) := by
  induction rows generalizing state returned with
  | nil =>
      cases ran
      exact ⟨nofun, rfl, fun _ _ => rfl⟩
  | cons row rest ih =>
      obtain ⟨written, between, first, ran⟩ := run_bind_eq_ok.mp ran
      obtain ⟨others, _, ranRest, isAfter⟩ := run_bind_eq_ok.mp ran
      cases isAfter
      obtain ⟨valid, rfl, isBetween⟩ := updateMatched_spec wellFormed first
      obtain ⟨validRest, rfl, held⟩ := ih ranRest
      refine ⟨forall_mem_cons.mpr ⟨valid, validRest⟩, rfl, fun owner primaryKey => ?_⟩
      have readings : between.readings =
          if table.isManaged then state.readings + 1
          else state.readings := by
        rw [isBetween, changed_readings, ticked]
        split <;> rfl
      rw [held, readings, replacements, map_cons, lastUnder,
        Option.map_or, Option.or_assoc]
      refine congrArg _ ?_
      generalize records.stamped table (assigned assignments row) (some row)
        state.readings = stamped at isBetween ⊢
      have wrote : between.transaction = (state.changed
          (rowChanges table stamped (some row))).transaction := by
        rw [isBetween, changed_ticked]
      rw [wrote]
      by_cases isKey : rowKey table (stamped.primaryKeyValues table) =
          rowKey owner primaryKey
      · rw [if_pos isKey, get_changed, ← isKey, lastWrite_rowKey]
        rfl
      · rw [if_neg isKey]
        exact get_rowChanges_of_ne (Ne.symm isKey) (some row) state

theorem mem_replacements_spec
    {readings : Nat} {written : Row}
    (member : written ∈ (records.replacements table assignments rows
      readings).map Prod.snd) :
    ∃ row ∈ rows, ∃ stamps, table.Stamps stamps ∧
      written = (assigned assignments row).refilled stamps := by
  induction rows generalizing readings with
  | nil => cases member
  | cons row rest ih =>
      rcases mem_cons.mp member with rfl | inRest
      · exact ⟨row, mem_cons_self .., _, records.stamps_stampsOf table
          (some row) readings, records.stamped_eq_refilled ..⟩
      · obtain ⟨other, inOthers, found⟩ := ih inRest
        exact ⟨other, mem_cons_of_mem _ inOthers, found⟩

theorem exists_lastUnder_replacements
    (wellFormed : table.WellFormed)
    {row : Row}
    (member : row ∈ rows)
    (readings : Nat) :
    ∃ last, lastUnder table
      (rowKey table ((assigned assignments row).primaryKeyValues table))
      ((records.replacements table assignments rows readings).map
        Prod.snd) = some last := by
  have written : ∃ other ∈ (records.replacements table assignments rows
      readings).map Prod.snd, other.primaryKeyValues table =
        (assigned assignments row).primaryKeyValues table := by
    induction rows generalizing readings with
    | nil => cases member
    | cons first rest ih =>
        rcases mem_cons.mp member with rfl | inRest
        · refine ⟨_, mem_cons_self .., ?_⟩
          dsimp only
          rw [stamped_eq_refilled, Row.primaryKeyValues_refilled wellFormed
            (records.stamps_stampsOf table (some row) readings).fills]
        · obtain ⟨other, inOthers, sameKey⟩ := ih inRest _
          exact ⟨other, mem_cons_of_mem _ inOthers, sameKey⟩
  obtain ⟨other, inWritten, sameKey⟩ := written
  rw [← sameKey]
  exact exists_lastUnder inWritten

end RecordTransaction

/-! ## Reading back what was returned -/

/-- A row is read under its own key. -/
def ReadsBack (records : RecordTransaction) (reader : SecurityContext)
    (table : TableDef) (snapshot : Snapshot) (row : Row) : Prop :=
  ∃ found, records.reads.get snapshot reader table
      (row.primaryKeyValues table) = .ok (some found) ∧ found.Same row

/--
What is written last under a row's key is stored as the row, and is read by
those that a filter shows the row to.
-/
structure WrittenAs (table : TableDef) (filter : Expr) (written : List Row)
    (row : Row) : Prop where
  current : table.Current
  last : ∃ last, lastUnder table
      (Keys.rowKey table (row.primaryKeyValues table)) written = some last ∧
    (last.project table.storedColumns).map Value.coded =
      (row.project table.storedColumns).map Value.canonical
  shown : filter.admits row = true

/-- A body is read back as a row when it is stored as the row. -/
theorem readsBack_iff
    {table : TableDef}
    (wellFormed : table.WellFormed)
    {records : RecordTransaction} {reader : SecurityContext}
    (readsAll : records.security.readable reader table = none)
    (authorized : records.security.authorize reader table .read = .ok ())
    {filter : Expr}
    (isFilter : records.security.rowFilter reader table .read = .ok filter)
    {row last : Row}
    (valid : row.validate table = .ok ())
    (codes : last.Codes table) {snapshot : Snapshot}
    (held : snapshot.get (rowKey table (row.primaryKeyValues table)) =
      some (encodeBody table last)) :
    ReadsBack records reader table snapshot row ↔ table.Current ∧
        (last.project table.storedColumns).map Value.coded =
          (row.project table.storedColumns).map Value.canonical ∧
        filter.admits row = true := by
  have unconcealed : records.security.concealed reader table = [] := by
    rw [SecurityCatalog.concealed, readsAll]
  have read : readRowUnchecked snapshot table (row.primaryKeyValues table) =
      (liftSchema (decodeRow table (row.primaryKeyValues table)
        (encodeBody table last)) >>= fun found => .ok (some found)) := by
    rw [readRowUnchecked, held]
    rfl
  constructor
  · rintro ⟨found, isGet, same⟩
    obtain ⟨_, -, isGet⟩ := bind_eq_ok.mp isGet
    obtain ⟨filter', isFilter', isGet⟩ := bind_eq_ok.mp isGet
    cases isFilter.symm.trans isFilter'
    obtain ⟨_, isRead, isGet⟩ := bind_eq_ok.mp isGet
    rw [read] at isRead
    obtain ⟨decoded, decodes, isRead⟩ := bind_eq_ok.mp isRead
    cases isRead
    have isFound : ((some decoded).filter filter.admits).map (fun row => conceal row
          (records.security.concealed reader table)) = some found :=
      Except.ok.inj isGet
    rw [unconcealed, Option.filter_some] at isFound
    split at isFound
    · next admitted =>
        cases isFound
        rw [liftSchema_eq_ok, decodeRow_eq_ok_iff_of_codes wellFormed codes] at decodes
        obtain ⟨current, rfl⟩ := decodes
        exact ⟨current, (same_fillKey_iff wellFormed valid last).mp same,
          (filter.admits_of_same same).symm.trans admitted⟩
    · cases isFound
  · rintro ⟨current, agree, admitted⟩
    have same := (same_fillKey_iff wellFormed valid last).mpr agree
    refine ⟨_, bind_eq_ok.mpr ⟨(), authorized, bind_eq_ok.mpr
      ⟨filter, isFilter, bind_eq_ok.mpr ⟨some ⟨fillKey table
        (row.primaryKeyValues table)
        (last.readInto table.storedColumns table.blank)⟩, ?_, ?_⟩⟩⟩, same⟩
    · rw [read]
      refine bind_eq_ok.mpr ⟨_, liftSchema_eq_ok.mpr ?_, rfl⟩
      exact (decodeRow_eq_ok_iff_of_codes wellFormed codes _ _).mpr ⟨current, rfl⟩
    · rw [← filter.admits_of_same same] at admitted
      refine congrArg Except.ok ?_
      change ((some _).filter filter.admits).map (fun row => conceal row
        (records.security.concealed reader table)) = _
      rw [unconcealed, Option.filter_some, if_pos admitted]
      rfl

/--
An update returns what it wrote exactly when each row that it returns is what
is stored last under the row's key.
-/
theorem readsBack_returned_iff
    {builder : TableBuilder} {table : TableDef}
    (built : builder.build = .ok table)
    {records : RecordTransaction} {context reader : SecurityContext}
    (returnsAll : records.security.readable context table = none)
    (readsAll : records.security.readable reader table = none)
    (authorized : records.security.authorize reader table .read = .ok ())
    {filter : Expr}
    (isFilter : records.security.rowFilter reader table .read = .ok filter)
    {predicate : Expr} {assignments : List (Ordinal × Scalar)}
    {atMost : Option Nat} {state after : RecordState} {rows : List Row}
    (matched : records.checkUpdateWhere context table predicate assignments
      atMost state.transaction = .ok rows)
    {returned : List Row}
    (ran : (records.updateWhere context table predicate assignments
      atMost).run state = (.ok returned, after)) :
    (∀ row ∈ returned, ReadsBack records reader table after.transaction row) ↔
      ∀ row ∈ rows.map (RecordTransaction.assigned assignments),
        WrittenAs table filter ((records.replacements table assignments rows
            state.readings).map Prod.snd) row := by
  have wellFormed := TableBuilder.build_wellFormed built
  obtain ⟨rows', matched', collected⟩ := run_reading_bind_eq_ok.mp ran
  cases matched.symm.trans matched'
  obtain ⟨valid, isReturned, held⟩ :=
    RecordTransaction.collect_updateMatched_spec wellFormed collected
  have isAssigned : returned = rows.map (RecordTransaction.assigned assignments) := by
    rw [isReturned, SecurityCatalog.concealed, returnsAll]
    rfl
  rw [isAssigned, forall_mem_map, forall_mem_map]
  refine forall₂_congr (fun row member => ?_)
  have isPut : ∃ last, lastUnder table (rowKey table
      ((RecordTransaction.assigned assignments row).primaryKeyValues table))
        ((records.replacements table assignments rows
          state.readings).map Prod.snd) = some last :=
    RecordTransaction.exists_lastUnder_replacements wellFormed member state.readings
  obtain ⟨last, isLast⟩ := isPut
  obtain ⟨other, inRows, stamps, onWrite, rfl⟩ :=
    RecordTransaction.mem_replacements_spec (mem_of_lastUnder isLast).1
  have isHeld := held table
    ((RecordTransaction.assigned assignments row).primaryKeyValues table)
  rw [isLast] at isHeld
  rw [readsBack_iff wellFormed readsAll authorized isFilter (valid row member)
    (Row.codes_refilled wellFormed (valid other inRows) onWrite) isHeld]
  constructor
  · rintro ⟨current, agree, admitted⟩
    exact ⟨current, ⟨_, isLast, agree⟩, admitted⟩
  · rintro ⟨current, ⟨found, isFound, agree⟩, admitted⟩
    cases isLast.symm.trans isFound
    exact ⟨current, agree, admitted⟩

end

/-! ## A draft that is read with its timestamps -/

section

local instance refreshedPlatform : Platform := asciiPlatform

/-- The account is read back as it was returned. -/
theorem readsBack_phone :
    ∃ returned after, updatedAccount (1, .literal (.i64 30)) = (.ok returned, after) ∧
      ∀ row ∈ returned, ReadsBack (.plain ⟨[accounts]⟩) .superuser accounts
        after.transaction row := by
  have built : accountsBuilder.build = .ok accounts := rfl
  have matched : (RecordTransaction.plain ⟨[accounts]⟩).checkUpdateWhere
      .superuser accounts (.all []) [(1, .literal (.i64 30))] none
        oneAccount.transaction = .ok [⟨[.i64 1, .i64 10, .i64 20]⟩] :=
    rfl
  obtain ⟨returned, ran⟩ := exists_updated (1, .literal (.i64 30)) (by decide)
  refine ⟨returned, _, ran, (readsBack_returned_iff built rfl rfl rfl rfl
    matched ran).mpr ?_⟩
  have current : accounts.Current := by
    intro ordinal inBody _
    simp only [accounts, mem_cons, not_mem_nil, or_false] at inBody
    rcases inBody with rfl | rfl
    · rfl
    · rfl
  intro row member
  rw [mem_singleton.mp member]
  exact ⟨current, ⟨⟨[.i64 1, .i64 30, .i64 20]⟩, rfl, rfl⟩, rfl⟩

/-- A transaction that has made a draft. -/
def oneDraft : RecordState :=
  (((RecordTransaction.counting ⟨[drafts]⟩).insert .superuser drafts
    ⟨[.i64 1, .i64 0, .i64 0]⟩).run (.begin ∅)).2

/-- What giving the draft its own key comes to. -/
def refreshedDraft : Except KernelError (List Row) × RecordState :=
  ((RecordTransaction.counting ⟨[drafts]⟩).updateWhere .superuser drafts
    (.all []) [(0, .literal (.i64 1))] none).run oneDraft

/-- Whether the draft is read as changed at another time than was returned. -/
def readsOther : Option Bool := do
  let returned ← refreshedDraft.1.toOption
  let row ← returned.head?
  let read ← ((RecordTransaction.counting ⟨[drafts]⟩).reads.get
    refreshedDraft.2.transaction .superuser drafts
    (row.primaryKeyValues drafts)).toOption
  let found ← read
  return (found.valueOrNull 2).cmp (row.valueOrNull 2) != .eq

/-- A draft that is updated is returned with the time of its last change. -/
theorem not_readsBack_refreshedDraft :
    ¬∀ (_ : Platform) (builder : TableBuilder) (table : TableDef),
      builder.build = .ok table →
      ∀ (records : RecordTransaction) (context reader : SecurityContext),
      records.security.readable context table = none →
      records.security.readable reader table = none →
      records.security.authorize reader table .read = .ok () →
      ∀ (predicate : Expr) (assignments : List (Ordinal × Scalar))
        (atMost : Option Nat) (state after : RecordState)
        (returned : List Row),
      (records.updateWhere context table predicate assignments atMost).run
        state = (.ok returned, after) →
      ∀ row ∈ returned, ReadsBack records reader table after.transaction row := by
  intro always
  have isOther : readsOther = some true := by
    decide
  rw [readsOther] at isOther
  obtain ⟨returned, isReturned, isOther⟩ := Option.bind_eq_some_iff.mp isOther
  obtain ⟨row, isFirst, isOther⟩ := Option.bind_eq_some_iff.mp isOther
  obtain ⟨read, isRead, isOther⟩ := Option.bind_eq_some_iff.mp isOther
  obtain ⟨found, isFound, isOther⟩ := Option.bind_eq_some_iff.mp isOther
  obtain ⟨found', read', same⟩ := always refreshedPlatform draftsBuilder drafts rfl
    (.counting ⟨[drafts]⟩) .superuser .superuser rfl rfl rfl (.all [])
    [(0, .literal (.i64 1))] none oneDraft _ returned (Prod.ext
    (eq_ok_of_toOption isReturned) rfl) row (mem_of_head? isFirst)
  cases (eq_ok_of_toOption isRead).symm.trans read'
  cases isFound
  have differs := Option.some.inj isOther
  rw [(Value.cmp_eq_iff_canonical _ _).mpr (same.valueOrNull 2)] at differs
  cases differs

end

end SlateOrm
