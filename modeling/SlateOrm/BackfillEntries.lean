import SlateOrm.BackfillSlots
import SlateOrm.RecordAtomicity

namespace SlateOrm

open List RecordTransaction Keys Option Overlay Migrating RecordState

/-!
# A build against the writes it stands in for

An index that is complete holds, for every stored row, the entries that writing
the row would have put there, and nothing else.  A build over an empty range
leaves its index complete, except that for a text index it writes one entry
under the whole text where the write path has one for each term.
-/

variable {row : Row}

namespace Migration

/-! ## Stored rows -/

/-- A row that a table holds under its key. -/
def Stores (table : TableDef) (store : Kv) (keyed : KeyedRow) : Prop :=
  Keys.tablePrefix table <+: keyed.key ∧ ∃ body, store[keyed.key]? = some body ∧
      readKeyedRow table ⟨keyed.key, body⟩ = .ok keyed

/-- Everything under the keys of a table is a row that can be read. -/
def Readable (table : TableDef) (store : Kv) : Prop :=
  ∀ key body, Keys.tablePrefix table <+: key → store[key]? = some body →
    ∃ keyed, readKeyedRow table ⟨key, body⟩ = .ok keyed

/-- Everything under the keys of a table is under the key of a row. -/
def RowKeys (table : TableDef) (store : Kv) : Prop :=
  ∀ key body, Keys.tablePrefix table <+: key → store[key]? = some body →
    ∃ row : Row, key = Keys.rowKey table (row.primaryKeyValues table)

variable {table : TableDef}

theorem stores_congr
    {first second : Kv}
    (agree : ∀ key, tablePrefix table <+: key → first[key]? = second[key]?)
    (keyed : KeyedRow) :
    Stores table first keyed ↔ Stores table second keyed := by
  constructor
  · rintro ⟨ofTable, body, held, read⟩
    exact ⟨ofTable, body, (agree _ ofTable) ▸ held, read⟩
  · rintro ⟨ofTable, body, held, read⟩
    exact ⟨ofTable, body, (agree _ ofTable) ▸ held, read⟩

theorem mem_iff_stores
    {store : Kv} {rows : List KeyedRow}
    (read : readKeyedRows table (pairsAfter table none store) = .ok rows)
    {keyed : KeyedRow} :
    keyed ∈ rows ↔ Stores table store keyed := by
  rw [mem_of_readKeyedRows read]
  constructor
  · rintro ⟨pair, inTable, readRow⟩
    obtain ⟨ofTable, held⟩ := mem_pairsAfter.mp inTable
    have isKey := key_of_readKeyedRow readRow
    rw [Stores, isKey]
    exact ⟨ofTable, pair.value, held, readRow⟩
  · rintro ⟨ofTable, body, held, readRow⟩
    exact ⟨_, mem_pairsAfter.mpr ⟨ofTable, held⟩, readRow⟩

theorem Readable.exists_rows
    {store : Kv} (readable : Readable table store) :
    ∃ rows, readKeyedRows table (pairsAfter table none store) = .ok rows := by
  refine exists_readKeyedRows (fun pair inTable => ?_)
  obtain ⟨ofTable, held⟩ := mem_pairsAfter.mp inTable
  exact readable pair.key pair.value ofTable held

theorem encode_of_decodeRowKey
    {primaryKey : List Value}
    (success : decodeRowKey table
      (rowKey table (row.primaryKeyValues table)) = .ok primaryKey) :
    encode primaryKey = encode (row.primaryKeyValues table) := by
  rw [decodeRowKey, rowKey, tablePrefix] at success
  split at success
  · cases success
  · rw [← length_header ROW_SPACE table.id, drop_left, liftTuple_eq_ok] at success
    have sameLength : primaryKey.length = (row.primaryKeyValues table).length :=
      (length_of_decode success).trans (length_primaryKeyTypes table row)
    rw [encode, encode, encodeWith_eq_iff sameLength, coded_of_decode success]
    exact decode_spec (length_primaryKeyTypes table row) success

namespace Stores

variable
  {table : TableDef}
  {store : Kv}
  {keyed other : KeyedRow}

section

variable
  (stored : Stores table store keyed)

include stored

theorem readFrom
    (wellFormed : table.WellFormed) :
    keyed.ReadFrom table := by
  obtain ⟨_, _, _, read⟩ := stored
  exact readFrom_of_readKeyedRow wellFormed read

theorem key_eq
    (rowKeys : RowKeys table store) :
    keyed.key = rowKey table keyed.primaryKey := by
  obtain ⟨ofTable, body, held, read⟩ := stored
  obtain ⟨row, isKey⟩ := rowKeys _ _ ofTable held
  obtain ⟨primaryKey, decodes, read⟩ := bind_eq_ok.mp read
  obtain ⟨_, _, read⟩ := bind_eq_ok.mp read
  have isPrimaryKey : primaryKey = keyed.primaryKey :=
    congrArg KeyedRow.primaryKey (Except.ok.inj read)
  rw [isPrimaryKey, isKey] at decodes
  rw [isKey, rowKey, rowKey, encode_of_decodeRowKey decodes]

theorem eq_of_key
    (storedOther : Stores table store other)
    (sameKey : other.key = keyed.key) :
    other = keyed := by
  obtain ⟨_, body, held, read⟩ := stored
  obtain ⟨_, body', held', read'⟩ := storedOther
  rw [sameKey] at held' read'
  obtain rfl := some.inj (held.symm.trans held')
  exact Except.ok.inj (read'.symm.trans read)

theorem eq_of_encode
    (storedOther : Stores table store other) (rowKeys : RowKeys table store)
    (same : encode other.primaryKey = encode keyed.primaryKey) :
    other = keyed := by
  refine stored.eq_of_key storedOther ?_
  rw [stored.key_eq rowKeys, storedOther.key_eq rowKeys, rowKey, rowKey, same]

end

end Stores

variable [Platform]

/-! ## Complete indexes -/

/-- What the write path keeps in an index for the rows that a table holds. -/
def Entered (table : TableDef) (index : IndexDef) (store : Kv)
    (key value : Bytes) : Prop :=
  ∃ keyed, Stores table store keyed ∧ ∃ entry ∈ admittedEntries table index keyed.row,
      entry.key = key ∧ entry.value = value

/-- An index holds what the write path keeps in it, and nothing else. -/
def IndexComplete (table : TableDef) (index : IndexDef) (store : Kv) :
    Prop :=
  ∀ key value, Keys.OfIndex index.id key →
    (store[key]? = some value ↔ Entered table index store key value)

/-- Nothing is kept under the keys of an index. -/
def IndexEmpty (index : IndexId) (store : Kv) : Prop :=
  ∀ key, Keys.OfIndex index key → store[key]? = none

theorem entered_congr
    {table : TableDef} {first second : Kv}
    (agree : ∀ key, tablePrefix table <+: key → first[key]? = second[key]?)
    (index : IndexDef) (key value : Bytes) :
    Entered table index first key value ↔ Entered table index second key value :=
  exists_congr (fun keyed => and_congr_left' (stores_congr agree keyed))

/-- What a build that succeeds makes of a store. -/
structure Backfilled (table : TableDef) (index : IndexDef)
    (store after : Kv) : Prop where
  /-- Each row's entry is there, and what was under other keys. -/
  entries : ∀ key value, after[key]? = some value ↔
      (∃ keyed, Stores table store keyed ∧ index.admits keyed.row = true ∧
        (backfillEntry table index keyed).key = key ∧
        (backfillEntry table index keyed).value = value) ∨
      (store[key]? = some value ∧
        ∀ keyed, Stores table store keyed → index.admits keyed.row = true →
          (backfillEntry table index keyed).key ≠ key)

namespace Backfilled

variable
  {table : TableDef}
  {index : IndexDef}
  {store after : Kv}
  (backfilled : Backfilled table index store after)

include backfilled

theorem elsewhere
    {key : Bytes}
    (other : ¬OfIndex index.id key) :
    after[key]? = store[key]? := by
  refine ext (fun value => ?_)
  rw [backfilled.entries]
  constructor
  · rintro (⟨keyed, _, _, rfl, _⟩ | ⟨held, _⟩)
    · exact absurd (indexEntry_ofIndex ..) other
    · exact held
  · intro held
    refine .inr ⟨held, ?_⟩
    rintro keyed _ _ rfl
    exact other (indexEntry_ofIndex ..)

theorem sameTable
    (table' : TableDef) (key : Bytes)
    (ofTable : tablePrefix table' <+: key) :
    after[key]? = store[key]? :=
  backfilled.elsewhere (fun ofIndex => not_tablePrefix_of_ofIndex ofIndex ofTable)

theorem kept
    {key value : Bytes}
    (held : store[key]? = some value) :
    ∃ value', after[key]? = some value' := by
  by_cases written : ∃ keyed, Stores table store keyed ∧ index.admits
    keyed.row = true ∧ (backfillEntry table index keyed).key = key
  · obtain ⟨keyed, stored, admits, isKey⟩ := written
    exact ⟨_, (backfilled.entries key _).mpr (.inl ⟨keyed, stored, admits, isKey, rfl⟩)⟩
  · refine ⟨value, (backfilled.entries key value).mpr (.inr ⟨held, ?_⟩)⟩
    intro keyed stored admits isKey
    exact written ⟨keyed, stored, admits, isKey⟩

end Backfilled

variable {index : IndexDef}

theorem backfilled_of_passes
    {table : TableDef}
    (wellFormed : table.WellFormed)
    {store : Kv} {rows : List KeyedRow}
    (read : readKeyedRows table (pairsAfter table none store) = .ok rows)
    (passes : backfillRefusal table index (.begin store)
      (rows.filter (fun keyed => index.admits keyed.row)) = none) :
    Backfilled table index store
      (carryOut store (backfillChanges table index rows)) := by
  constructor
  intro key value
  have readFrom : ∀ keyed ∈ rows, keyed.ReadFrom table :=
    fun keyed member => ((mem_iff_stores read).mp member).readFrom wellFormed
  rw [getElem?_backfilled_iff wellFormed readFrom passes]
  simp only [mem_iff_stores read]

/-- A build leaves what the write path keeps for a row, given what was there. -/
structure BuiltUpon (table : TableDef) (index : IndexDef) (store : Kv)
    (keyed : KeyedRow) : Prop where
  kept : index.keyValues keyed.row ∈ index.keySets keyed.row
  others : ∀ values ∈ index.keySets keyed.row, values = index.keyValues keyed.row ∨
      store[(Keys.indexEntry table index values keyed.primaryKey).key]? =
        some (Keys.indexEntry table index values keyed.primaryKey).value

/-- The write path keeps a row under the values that a build takes alone. -/
structure AsBuilt (index : IndexDef) (row : Row) : Prop where
  kept : index.keyValues row ∈ index.keySets row
  only : ∀ values ∈ index.keySets row, values = index.keyValues row

theorem asBuilt_of_not_text
    (notText : index.text = false)
    (row : Row) :
    AsBuilt index row := by
  have single : index.keySets row = [index.keyValues row] := by
    rw [IndexDef.keySets, notText]
    rfl
  constructor
  · rw [single]
    exact mem_singleton.mpr rfl
  · intro values member
    rw [single] at member
    exact mem_singleton.mp member

variable {values : List Value}

theorem eq_keyValues_of_coded
    {columns : List ColumnDef}
    (wellFormed : index.WellFormed columns)
    (member : values ∈ index.keySets row)
    (same : values.map Value.coded = (index.keyValues row).map Value.coded) :
    values = index.keyValues row := by
  cases isText : index.text with
  | false => exact (asBuilt_of_not_text isText row).only values member
  | true =>
      obtain ⟨_, noExpression, entry, column, isColumn, _⟩ := wellFormed.text isText
      rw [IndexDef.keySets, isText, isColumn] at member
      simp only [Bool.not_true, Bool.false_eq_true, if_false, head?_cons] at member
      rw [IndexDef.keyValues, noExpression, Row.indexValues, isColumn] at same ⊢
      split at member
      · next held =>
          obtain ⟨term, _, rfl⟩ := mem_map.mp member
          simp only [Row.project, map_cons, map_nil,
            Row.valueOrNull, held, getD_some] at same ⊢
          rw [Value.str.inj (cons.inj same).1]
      · cases member

theorem mem_admittedEntries_of_readFrom
    {table : TableDef} {keyed : KeyedRow} (read : keyed.ReadFrom table)
    {entry : IndexEntry} :
    entry ∈ admittedEntries table index keyed.row ↔
      index.admits keyed.row = true ∧ ∃ values ∈ index.keySets keyed.row,
        entry = indexEntry table index values keyed.primaryKey := by
  rw [mem_admittedEntries, read.ofRow]

section

variable
  {table : TableDef}
  (wellFormed : table.WellFormed)
  {index : IndexDef}
  (declared : index ∈ table.indexes)
  {store : Kv}
  (rowKeys : RowKeys table store)

include wellFormed declared rowKeys

variable {keyed : KeyedRow}

/-- The entry that a build writes for a row is the write path's for it alone. -/
theorem eq_of_entry
    {other : KeyedRow} (stored : Stores table store keyed)
    (storedOther : Stores table store other)
    (member : values ∈ index.keySets other.row)
    (sameKey : (indexEntry table index values other.primaryKey).key =
        (backfillEntry table index keyed).key)
    (sameValue : (indexEntry table index values other.primaryKey).value =
        (backfillEntry table index keyed).value) :
    other = keyed ∧ values = index.keyValues keyed.row := by
  have indexWellFormed := wellFormed.indexes index declared
  obtain ⟨sameValues, samePrimaryKey⟩ := coded_of_indexEntry_key
    (length_of_mem_keySets indexWellFormed member) (length_keyValues index keyed.row)
    ((storedOther.readFrom wellFormed).nonempty wellFormed)
    ((stored.readFrom wellFormed).nonempty wellFormed) sameKey
  have oneKey : encode other.primaryKey = encode keyed.primaryKey := by
    cases isUnique : slotIsUnique index values with
    | false => exact samePrimaryKey isUnique
    | true =>
        have isUnique' : slotIsUnique index (index.keyValues keyed.row) = true := by
          rw [slotIsUnique, ← any_isNull_of_coded sameValues]
          exact isUnique
        rw [backfillEntry, indexEntry_eq, indexEntry_eq, isUnique,
          isUnique'] at sameValue
        exact sameValue
  obtain rfl := stored.eq_of_encode storedOther rowKeys oneKey
  exact ⟨rfl, eq_keyValues_of_coded indexWellFormed member sameValues⟩

variable {after : Kv}

/-- An index that is complete after a build holds each row as built. -/
theorem builtUpon_of_complete
    (backfilled : Backfilled table index store after)
    (complete : IndexComplete table index after)
    (stored : Stores table store keyed)
    (admits : index.admits keyed.row = true) :
    BuiltUpon table index store keyed := by
  have sameEntered := entered_congr (backfilled.sameTable table) index
  have read := stored.readFrom wellFormed
  constructor
  · have ofIndex : OfIndex index.id (backfillEntry table index keyed).key :=
      indexEntry_ofIndex ..
    have held := (backfilled.entries _ _).mpr (.inl ⟨keyed, stored, admits, rfl, rfl⟩)
    obtain ⟨other, storedOther, entry, isEntry, sameKey, sameValue⟩ :=
      (sameEntered _ _).mp ((complete _ _ ofIndex).mp held)
    obtain ⟨_, values, member, rfl⟩ := (mem_admittedEntries_of_readFrom
      (storedOther.readFrom wellFormed)).mp isEntry
    obtain ⟨rfl, isKey⟩ := eq_of_entry wellFormed declared rowKeys stored
      storedOther member sameKey sameValue
    rw [← isKey]
    exact member
  · intro values member
    have ofIndex : OfIndex index.id
        (indexEntry table index values keyed.primaryKey).key :=
      indexEntry_ofIndex ..
    have isEntry : Entered table index store
        (indexEntry table index values keyed.primaryKey).key
        (indexEntry table index values keyed.primaryKey).value :=
      ⟨keyed, stored, _, (mem_admittedEntries_of_readFrom read).mpr
        ⟨admits, values, member, rfl⟩, rfl, rfl⟩
    have held := (complete _ _ ofIndex).mpr ((sameEntered _ _).mpr isEntry)
    rcases (backfilled.entries _ _).mp held with
      ⟨other, storedOther, _, sameKey, sameValue⟩ | ⟨held, _⟩
    · left
      obtain ⟨rfl, isKey⟩ := eq_of_entry wellFormed declared rowKeys
        storedOther stored member sameKey.symm sameValue.symm
      exact isKey
    · exact .inr held

omit rowKeys in
theorem held_of_builtUpon
    (backfilled : Backfilled table index store after)
    (stored : Stores table store keyed)
    (admits : index.admits keyed.row = true)
    (builtUpon : BuiltUpon table index store keyed)
    (member : values ∈ index.keySets keyed.row) :
    after[(indexEntry table index values keyed.primaryKey).key]? =
      some (indexEntry table index values keyed.primaryKey).value := by
  rcases builtUpon.others values member with rfl | held
  · exact (backfilled.entries _ _).mpr (.inl ⟨keyed, stored, admits, rfl, rfl⟩)
  · cases isText : index.text with
    | false =>
        rw [(asBuilt_of_not_text isText keyed.row).only values member]
        exact (backfilled.entries _ _).mpr (.inl ⟨keyed, stored, admits, rfl, rfl⟩)
    | true =>
        -- Every entry of a text index has an empty value.
        have notUnique := ((wellFormed.indexes index declared).text isText).1
        have empty (indexed primaryKey : List Value) :
            (indexEntry table index indexed primaryKey).value = [] := by
          rw [indexEntry_eq, slotIsUnique, notUnique]
          rfl
        obtain ⟨value, heldAfter⟩ := backfilled.kept held
        rw [heldAfter]
        rcases (backfilled.entries _ _).mp heldAfter with
          ⟨other, _, _, _, rfl⟩ | ⟨same, _⟩
        · rw [backfillEntry, empty, empty]
        · exact same.symm.trans held

/--
A build leaves its index complete exactly when everything that was there has
the key of an entry, and each row is held as built.
-/
theorem indexComplete_backfilled_iff
    (backfilled : Backfilled table index store after) :
    IndexComplete table index after ↔
      (∀ key value, OfIndex index.id key → store[key]? = some value →
        ∃ value', Entered table index store key value') ∧
      ∀ keyed, Stores table store keyed → index.admits keyed.row = true →
        BuiltUpon table index store keyed := by
  have sameEntered := entered_congr (backfilled.sameTable table) index
  constructor
  · intro complete
    refine ⟨?_, fun keyed => builtUpon_of_complete wellFormed declared rowKeys
      backfilled complete⟩
    intro key value ofIndex held
    obtain ⟨value', heldAfter⟩ := backfilled.kept held
    exact ⟨value', (sameEntered key value').mp
      ((complete key value' ofIndex).mp heldAfter)⟩
  · rintro ⟨known, builtUpon⟩ key value ofIndex
    rw [sameEntered]
    have held : ∀ value', Entered table index store key value' →
        after[key]? = some value' := by
      rintro value' ⟨keyed, stored, entry, isEntry, rfl, rfl⟩
      obtain ⟨admits, values, member, rfl⟩ := (mem_admittedEntries_of_readFrom
        (stored.readFrom wellFormed)).mp isEntry
      exact held_of_builtUpon wellFormed declared backfilled stored admits
        (builtUpon keyed stored admits) member
    refine ⟨fun heldAfter => ?_, held value⟩
    rcases (backfilled.entries key value).mp heldAfter with
      ⟨keyed, stored, admits, isKey, isValue⟩ | ⟨heldBefore, _⟩
    · exact ⟨keyed, stored, _, (mem_admittedEntries_of_readFrom
        (stored.readFrom wellFormed)).mpr ⟨admits, _,
          (builtUpon keyed stored admits).kept, rfl⟩, isKey, isValue⟩
    · obtain ⟨value', isEntry⟩ := known key value ofIndex heldBefore
      rw [held value' isEntry] at heldAfter
      rw [← some.inj heldAfter]
      exact isEntry

end

/-! ## Builds over an empty range -/

/-- Two rows that a table holds claim one slot. -/
def SharedSlot (table : TableDef) (index : IndexDef) (store : Kv) : Prop :=
  ∃ first second, Stores table store first ∧ Stores table store second ∧
    first.key ≠ second.key ∧
    ∃ slot slot', RecordTransaction.uniqueSlot table index first.row = some slot ∧
      RecordTransaction.uniqueSlot table index second.row = some slot' ∧
      slot.key = slot'.key

/-- A build does what the writes of the stored rows would have done. -/
def BuildsAsWritten (table : TableDef) (index : IndexDef) (store : Kv) :
    Prop :=
  (∀ written, ((build table index).run store).1 = .ok written →
    IndexComplete table index
      (Migrating.latest store ((build table index).run store).2)) ∧
  ∀ name name',
    ((build table index).run store).1 = .error (.uniqueViolation name name') →
      SharedSlot table index store

variable {table : TableDef} {index : IndexDef} {store : Kv}
  {rows : List KeyedRow}

theorem Backfills.backfilled
    (wellFormed : table.WellFormed)
    {committed : List Kv}
    (built : Backfills table index (pairsAfter table none store) store (.ok ())
      committed) :
    Readable table store ∧ Backfilled table index store (latest store committed) := by
  obtain ⟨rows, read, passes, isLatest⟩ := built.written
  rw [isLatest]
  refine ⟨?_, backfilled_of_passes wellFormed read passes⟩
  intro key body ofTable held
  exact readable_of_readKeyedRows read (mem_pairsAfter.mpr ⟨ofTable, held⟩)

theorem backfilled_of_build
    (wellFormed : table.WellFormed)
    {written : Nat}
    (success : ((build table index).run store).1 = .ok written) :
    Readable table store ∧ Backfilled table index store
        (latest store ((build table index).run store).2) := by
  have built := backfills_build table index store
  rw [success] at built
  exact built.backfilled wellFormed

theorem uniqueSlot_of_readFrom
    {keyed : KeyedRow} (read : keyed.ReadFrom table)
    (admits : index.admits keyed.row = true)
    (enforces : (backfillEntry table index keyed).enforcesUniqueness = true) :
    uniqueSlot table index keyed.row = some (backfillEntry table index keyed) := by
  rw [uniqueSlot, if_pos admits, read.ofRow]
  exact if_pos enforces

omit [Platform] in
/-- A row that cannot be read is not refused for its slot. -/
theorem readKeyedRows_ne_uniqueViolation
    {pairs : List KeyValue} {error : KernelError}
    (unread : readKeyedRows table pairs = .error error)
    (name name' : String) :
    error ≠ .uniqueViolation name name' := by
  rintro rfl
  induction pairs with
  | nil => cases unread
  | cons pair pairs ih =>
      rw [readKeyedRows] at unread
      cases readRow : readKeyedRow table pair with
      | error error =>
          rw [readRow] at unread
          cases unread
          rw [readKeyedRow, decodeRowKey] at readRow
          split at readRow
          · cases readRow
          · cases decodes : decode (pair.key.drop HEADER_LEN) table.primaryKeyTypes with
            | error source =>
                rw [decodes] at readRow
                cases readRow
            | ok primaryKey =>
                rw [decodes] at readRow
                dsimp only [liftTuple, bind, Except.bind] at readRow
                cases reads : decodeRow table primaryKey pair.value with
                | error source
                | ok row =>
                    rw [reads] at readRow
                    cases readRow
      | ok row =>
          rw [readRow] at unread
          dsimp only [bind, Except.bind] at unread
          cases readRest : readKeyedRows table pairs with
          | error error =>
              rw [readRest] at unread
              cases unread
              exact ih readRest
          | ok rows =>
              rw [readRest] at unread
              cases unread

section

variable
  (wellFormed : table.WellFormed)

include wellFormed

/-- A build over an empty range stops only where two rows share a slot. -/
theorem sharedSlot_of_refused
    (empty : IndexEmpty index.id store)
    (stored : ∀ keyed ∈ rows, Stores table store keyed)
    {error : KernelError}
    (refused : backfillRefusal table index (.begin store)
      (rows.filter (fun keyed => index.admits keyed.row)) = some error) :
    SharedSlot table index store := by
  obtain ⟨before, keyed, after, isRows, _, refusal⟩ := exists_of_backfillRefusal refused
  have isAdmitted : ∀ other, other ∈ before ∨ other = keyed →
      Stores table store other ∧ index.admits other.row = true := by
    intro other isOther
    have inRows : other ∈ rows.filter (fun keyed =>
        index.admits keyed.row) := by
      rw [isRows, mem_append, mem_cons]
      rcases isOther with isBefore | isKeyed
      · exact .inl isBefore
      · exact .inr (.inl isKeyed)
    obtain ⟨member, admits⟩ := mem_filter.mp inRows
    exact ⟨stored other member, admits⟩
  obtain ⟨keyedStored, keyedAdmits⟩ := isAdmitted keyed (.inr rfl)
  have keyedRead := keyedStored.readFrom wellFormed
  have enforces : (backfillEntry table index keyed).enforcesUniqueness = true := by
    rw [backfillCheck] at refusal
    split at refusal
    · next enforces => exact enforces
    · cases refusal
  -- Nothing was under the key before, so an earlier row's entry is.
  cases found : ((begin store).changed (before.map
      (backfillChange table index))).transaction.get
        (backfillEntry table index keyed).key with
  | none =>
      rw [backfillCheck, if_pos enforces, checkUnique, found] at refusal
      cases refusal
  | some existing =>
      have free : store[(backfillEntry table index keyed).key]? = none :=
        empty _ (indexEntry_ofIndex ..)
      have held := found
      rw [← get_begin_carryOut, get_begin, getElem?_carryOut, free] at held
      cases isLast : lastWrite (backfillEntry table index keyed).key
          (before.map (backfillChange table index)) with
      | none =>
          rw [isLast] at held
          cases held
      | some written =>
          rw [isLast] at held
          obtain ⟨other, isBefore, isChange⟩ := mem_map.mp (mem_of_lastWrite isLast)
          obtain ⟨otherStored, otherAdmits⟩ := isAdmitted other (.inl isBefore)
          have otherRead := otherStored.readFrom wellFormed
          have sameKey : (backfillEntry table index other).key =
              (backfillEntry table index keyed).key :=
            congrArg Prod.fst isChange
          have isValue : existing = (backfillEntry table index other).value :=
            some.inj (held.symm.trans (congrArg Prod.snd isChange).symm)
          rw [isValue] at found
          rw [backfillCheck_of_held wellFormed keyedRead otherRead sameKey
            found] at refusal
          split at refusal
          · cases refusal
          · next otherKey =>
              refine ⟨other, keyed, otherStored, keyedStored, ?_, _, _,
                uniqueSlot_of_readFrom otherRead otherAdmits ?_,
                uniqueSlot_of_readFrom keyedRead keyedAdmits enforces, sameKey⟩
              · intro same
                exact otherKey (congrArg (fun keyed => encode keyed.primaryKey)
                  (keyedStored.eq_of_key otherStored same))
              · rw [← enforces]
                exact enforcesUniqueness_of_key wellFormed keyedRead otherRead sameKey

theorem backfillRefusal_of_not_unique
    (notUnique : index.unique = false)
    (read : ∀ keyed ∈ rows, keyed.ReadFrom table)
    (state : RecordState) :
    backfillRefusal table index state rows = none := by
  have free (keyed : KeyedRow) :
      (backfillEntry table index keyed).enforcesUniqueness = false := by
    rw [backfillEntry, indexEntry_eq]
    dsimp only
    rw [slotIsUnique, notUnique]
    rfl
  rw [backfillRefusal_eq_none_iff wellFormed read]
  constructor
  · intro keyed _
    rw [backfillCheck, if_neg (by rw [free]; decide)]
  · refine pairwise_of_forall_mem_list ?_
    intro first isFirst second isSecond sameKey
    exact (coded_of_backfillEntry_key wellFormed (read second isSecond)
      (read first isFirst) sameKey).2 (free second)

theorem exists_build_of_not_unique
    (notUnique : index.unique = false)
    (readable : Readable table store) :
    ∃ written, ((build table index).run store).1 = .ok written := by
  obtain ⟨rows, read⟩ := readable.exists_rows
  have succeeded := outcome_of_passes read
    (backfillRefusal_of_not_unique wellFormed notUnique
      (fun keyed isAdmitted => ((mem_iff_stores read).mp
        (mem_filter.mp isAdmitted).1).readFrom wellFormed) _)
    (backfills_build table index store)
  cases outcome : ((build table index).run store).1 with
  | ok written => exact ⟨written, rfl⟩
  | error error =>
      rw [outcome] at succeeded
      cases succeeded

theorem indexComplete_build_iff
    (declared : index ∈ table.indexes)
    (rowKeys : RowKeys table store) (empty : IndexEmpty index.id store)
    {written : Nat}
    (success : ((build table index).run store).1 = .ok written) :
    IndexComplete table index (latest store ((build table index).run store).2) ↔
      ∀ keyed, Stores table store keyed → index.admits keyed.row = true →
        AsBuilt index keyed.row := by
  rw [indexComplete_backfilled_iff wellFormed declared rowKeys
    (backfilled_of_build wellFormed success).2]
  constructor
  · rintro ⟨_, builtUpon⟩ keyed stored admits
    have upon := builtUpon keyed stored admits
    refine ⟨upon.kept, fun values member => ?_⟩
    rcases upon.others values member with same | held
    · exact same
    · rw [empty _ (indexEntry_ofIndex ..)] at held
      cases held
  · intro asBuilt
    refine ⟨?_, fun keyed stored admits => ?_⟩
    · intro key value ofIndex held
      rw [empty key ofIndex] at held
      cases held
    · have upon := asBuilt keyed stored admits
      exact ⟨upon.kept, fun values member => .inl (upon.only values member)⟩

theorem asBuilt_of_buildsAsWritten
    (declared : index ∈ table.indexes)
    (rowKeys : RowKeys table store) (empty : IndexEmpty index.id store)
    (asWritten : BuildsAsWritten table index store)
    (isText : index.text = true)
    (readable : Readable table store) {keyed : KeyedRow}
    (stored : Stores table store keyed)
    (admits : index.admits keyed.row = true) :
    AsBuilt index keyed.row := by
  have notUnique := ((wellFormed.indexes index declared).text isText).1
  obtain ⟨written, success⟩ := exists_build_of_not_unique wellFormed notUnique readable
  exact (indexComplete_build_iff wellFormed declared rowKeys empty success).mp
    (asWritten.1 written success) keyed stored admits

end

/--
A build over an empty range does what the writes of the stored rows would have
done, unless it is of a text index and one of its rows is not kept under its
whole text alone.
-/
theorem buildsAsWritten_iff
    {builder : TableBuilder} {table : TableDef}
    (built : builder.build = .ok table)
    {index : IndexDef}
    (declared : index ∈ table.indexes)
    {store : Kv} (rowKeys : RowKeys table store)
    (empty : IndexEmpty index.id store) :
    BuildsAsWritten table index store ↔ (index.text = true → Readable table store →
        ∀ keyed, Stores table store keyed → index.admits keyed.row = true →
          AsBuilt index keyed.row) := by
  have wellFormed := TableBuilder.build_wellFormed built
  constructor
  · intro asWritten isText readable keyed
    exact asBuilt_of_buildsAsWritten wellFormed declared rowKeys empty
      asWritten isText readable
  · intro asBuilt
    refine ⟨?_, ?_⟩
    · intro written success
      refine (indexComplete_build_iff wellFormed declared rowKeys empty
        success).mpr (fun keyed stored admits => ?_)
      cases isText : index.text with
      | false => exact asBuilt_of_not_text isText keyed.row
      | true =>
          exact asBuilt isText (backfilled_of_build wellFormed success).1 keyed
            stored admits
    · intro name name' refused
      have backfills := backfills_build table index store
      rw [refused] at backfills
      rcases backfills.stopped with unread | ⟨front, rows, isFront, read, refusal⟩
      · exact absurd rfl (readKeyedRows_ne_uniqueViolation unread name name')
      · refine sharedSlot_of_refused wellFormed empty ?_ refusal
        intro keyed member
        obtain ⟨pair, inFront, readRow⟩ := (mem_of_readKeyedRows read).mp member
        obtain ⟨ofTable, held⟩ := mem_pairsAfter.mp (isFront.subset inFront)
        have isKey := key_of_readKeyedRow readRow
        rw [Stores, isKey]
        exact ⟨ofTable, pair.value, held, readRow⟩

end Migration

/-! ## A text index over one row -/

/-- Notes, found by the words of their text. -/
def notesBuilder : TableBuilder where
  id := 1
  name := "notes"
  columns := [
    { name := "id", type := .i64 },
    { name := "text", type := .str, nullable := true }]
  primaryKey := ["id"]
  indexes := [
    { id := 1
      name := "notes_text"
      columns := [("text", .asc)]
      text := true }]

/-- The index on the words of a note. -/
def notesText : IndexDef := ⟨1, "notes_text", [⟨1, .asc⟩], false, none, none, true⟩

/-- The table that the builder makes. -/
def notes : TableDef where
  id := 1
  name := "notes"
  columns := notesBuilder.columns.map ColumnSpec.toColumn
  primaryKey := [0]
  bodyColumns := [1]
  storedColumns := [1]
  indexes := [notesText]
  checks := []
  foreignKeys := []
  tenantColumn := none
  softDelete := none
  schemaVersion := 0

/-- A store that holds these rows and nothing else. -/
def onlyRows (table : TableDef) : List Row → Kv
  | [] => ∅
  | row :: rows => (onlyRows table rows).insert
      (Keys.rowKey table (row.primaryKeyValues table)) (encodeBody table row)

/-- Three accounts, each with a phone and a badge of its own. -/
def storedAccounts : List Row :=
  [⟨[.i64 1, .i64 10, .i64 20]⟩, ⟨[.i64 2, .i64 11, .i64 21]⟩,
    ⟨[.i64 3, .i64 12, .i64 22]⟩]

namespace Migration

theorem exists_of_getElem?_onlyRows
    {table : TableDef} {rows : List Row} {key body : Bytes}
    (held : (onlyRows table rows)[key]? = some body) :
    ∃ row ∈ rows, key = rowKey table (row.primaryKeyValues table) ∧
      body = encodeBody table row := by
  induction rows with
  | nil => cases Std.ExtTreeMap.getElem?_empty.symm.trans held
  | cons row rows ih =>
      rw [onlyRows, Std.ExtTreeMap.getElem?_insert] at held
      split at held
      · next same =>
          exact ⟨row, mem_cons_self, (Std.LawfulEqCmp.eq_of_compare same).symm,
            (some.inj held).symm⟩
      · obtain ⟨row', member, isRow⟩ := ih held
        exact ⟨row', mem_cons_of_mem _ member, isRow⟩

theorem rowKeys_onlyRows
    (table : TableDef) (rows : List Row) :
    RowKeys table (onlyRows table rows) := by
  intro key body _ held
  obtain ⟨row, _, isKey, _⟩ := exists_of_getElem?_onlyRows held
  exact ⟨row, isKey⟩

theorem indexEmpty_onlyRows
    (table : TableDef) (rows : List Row) (index : IndexId) :
    IndexEmpty index (onlyRows table rows) := by
  intro key ofIndex
  cases held : (onlyRows table rows)[key]? with
  | none => rfl
  | some body =>
      obtain ⟨row, _, isKey, _⟩ := exists_of_getElem?_onlyRows held
      rw [isKey] at ofIndex
      exact absurd ofIndex (not_ofIndex_rowKey _ _ _)

theorem stores_onlyRows
    {table : TableDef} {row : Row} {keyed : KeyedRow}
    (read : readKeyedRow table ⟨rowKey table (row.primaryKeyValues table),
        encodeBody table row⟩ = .ok keyed) :
    Readable table (onlyRows table [row]) ∧
      Stores table (onlyRows table [row]) keyed := by
  constructor
  · intro key body _ held
    obtain ⟨_, member, isKey, isBody⟩ := exists_of_getElem?_onlyRows held
    rw [isKey, isBody, mem_singleton.mp member]
    exact ⟨keyed, read⟩
  · have isKey := key_of_readKeyedRow read
    refine ⟨?_, encodeBody table row, ?_, ?_⟩
    · rw [isKey]
      exact prefix_append ..
    · rw [isKey]
      exact Std.ExtTreeMap.getElem?_insert_self
    · rw [isKey]
      exact read

/-- An index on a number is built as it is written. -/
theorem buildsAsWritten_phones :
    letI := asciiPlatform
    accountsBuilder.build = .ok accounts ∧ BuildsAsWritten accounts
        ⟨1, "accounts_phone", [⟨1, .asc⟩], true, none, none, false⟩
        (onlyRows accounts storedAccounts) := by
  let _ : Platform := asciiPlatform
  have built : accountsBuilder.build = .ok accounts := rfl
  refine ⟨built, (buildsAsWritten_iff built (mem_cons_self ..)
    (rowKeys_onlyRows _ _) (indexEmpty_onlyRows _ _ _)).mpr ?_⟩
  rintro ⟨⟩

/--
A build writes an entry for a note without a text, which the write path keeps
out of the index.
-/
theorem not_buildsAsWritten_noText :
    ¬∀ (_ : Platform) (builder : TableBuilder) (table : TableDef),
      builder.build = .ok table →
      ∀ index ∈ table.indexes, ∀ store : Kv,
        RowKeys table store → IndexEmpty index.id store →
          BuildsAsWritten table index store := by
  intro always
  let _ : Platform := asciiPlatform
  have built : notesBuilder.build = .ok notes := rfl
  have isIndex : notesText ∈ notes.indexes := mem_singleton.mpr rfl
  have asWritten := always asciiPlatform notesBuilder notes built notesText
    isIndex (onlyRows notes [⟨[.i64 1, .null]⟩]) (rowKeys_onlyRows _ _)
    (indexEmpty_onlyRows _ _ _)
  have read : readKeyedRow notes
      ⟨rowKey notes (Row.primaryKeyValues ⟨[.i64 1, .null]⟩ notes),
        encodeBody notes ⟨[.i64 1, .null]⟩⟩ =
      .ok ⟨rowKey notes [.i64 1], [.i64 1], ⟨[.i64 1, .null]⟩⟩ :=
    rfl
  obtain ⟨readable, stored⟩ := stores_onlyRows read
  have asBuilt := asBuilt_of_buildsAsWritten
    (TableBuilder.build_wellFormed built) isIndex (rowKeys_onlyRows _ _)
    (indexEmpty_onlyRows _ _ _) asWritten rfl readable stored rfl
  cases asBuilt.kept

end Migration

end SlateOrm
