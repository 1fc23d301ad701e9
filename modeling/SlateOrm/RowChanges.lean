import SlateOrm.DeletionClosure
import SlateOrm.RecordAtomicity
import SlateOrm.StoredRows

namespace SlateOrm

open List Keys Overlay

/-!
# Changes of rows in a consistent store

Writing a row in the place of the one under its key, with the slots it takes
free, leaves a store that holds exactly the rows of a catalog and their entries.
So does erasing a row that is stored.
-/

namespace RecordState

theorem get_changed
    (state : RecordState) (changes : List Change) (key : Bytes) :
    (state.changed changes).transaction.get key =
      (lastWrite key changes).getD (state.transaction.get key) := by
  rw [MemoryStore.Transaction.get, MemoryStore.Transaction.get,
    changed_pending, getElem?_buffer]
  cases lastWrite key changes with
  | none
  | some written => rfl

theorem view_changed
    {catalog : Catalog} {changes : List Change}
    (owned : ∀ change ∈ changes, catalog.Owns change.1)
    (state : RecordState) (key : Bytes) :
    catalog.view (state.changed changes).transaction.get key =
      (lastWrite key changes).getD (catalog.view state.transaction.get key) := by
  by_cases owns : catalog.Owns key
  · rw [Catalog.view_of_owns owns, Catalog.view_of_owns owns, get_changed]
  · have untouched : lastWrite key changes = none :=
      lastWrite_of_absent (fun change member same => owns (same ▸ owned change member))
    rw [untouched, Catalog.view, Catalog.view, if_neg owns, if_neg owns]
    rfl

end RecordState

namespace CatalogRow

variable [Platform]

variable
  {catalog : Catalog}
  (wellFormed : catalog.WellFormed)
  (store : Bytes → Option Bytes)
  (new : CatalogRow catalog)

/-- What is taken for the row under a key is what the store keeps there. -/
def Meets : Option Row → Prop
  | none => store new.key = none
  | some old => ∃ record : CatalogRow catalog,
      (catalog.layout wellFormed).Stored store record ∧
        record.key = new.key ∧ old.Same record.row

/-- No other row that is stored is indexed under a key that a row takes. -/
def Free : Prop := ∀ (record : CatalogRow catalog) (key value value' : Bytes),
    (catalog.layout wellFormed).Stored store record →
    record.Indexed key value' → new.Indexed key value →
    record.key = new.key

end CatalogRow

namespace RecordTransaction

variable [Platform]

/-! ## Writing a row -/

section

variable
  {table : TableDef}
  {row : Row}
  {previous : Option Row}

variable {index : IndexDef} {change : Change}

theorem key_ne_of_unchanged
    {entry : IndexEntry}
    (member : entry ∈ admittedEntries table index row)
    (kept : unchanged entry (previousEntries table index previous) = true)
    (changes : change ∈ indexChanges table row previous index) :
    change.1 ≠ entry.key := by
  rcases mem_append.mp changes with dropped | added
  · exact key_ne_of_mem_droppedChanges dropped member
  · obtain ⟨other, inAdded, rfl⟩ := mem_map.mp added
    intro sameKey
    have isNew := (mem_filter.mp inAdded).2
    have sameUnchanged : unchanged other (previousEntries table index previous) =
          unchanged entry (previousEntries table index previous) := by
      rw [unchanged, unchanged, show other.key = entry.key from sameKey]
    rw [sameUnchanged, kept] at isNew
    cases isNew

theorem lastWrite_rowKey
    (table : TableDef) (row : Row) (previous : Option Row) :
    lastWrite (rowKey table (row.primaryKeyValues table))
        (rowChanges table row previous) =
      some (some (encodeBody table row)) := by
  have member : (rowKey table (row.primaryKeyValues table),
      some (encodeBody table row)) ∈ rowChanges table row previous :=
    mem_append_right _ (mem_singleton.mpr rfl)
  refine lastWrite_of_mem member ?_
  intro change isChange sameKey
  rcases mem_append.mp isChange with inIndexes | isRow
  · obtain ⟨index, _, inChanges⟩ := mem_flatMap.mp inIndexes
    have ofIndex := ofIndex_of_mem_indexChanges inChanges
    rw [sameKey] at ofIndex
    exact absurd ofIndex (not_ofIndex_rowKey _ _ _)
  · rw [mem_singleton.mp isRow]

theorem mem_indexChanges_of_ofIndex
    (wellFormed : table.WellFormed)
    (declared : index ∈ table.indexes)
    (member : change ∈ rowChanges table row previous)
    (ofIndex : OfIndex index.id change.1) :
    change ∈ indexChanges table row previous index := by
  rcases mem_append.mp member with inIndexes | isRow
  · obtain ⟨other, inTable, inChanges⟩ := mem_flatMap.mp inIndexes
    rwa [eq_of_sameKey wellFormed.indexIds declared inTable ofIndex
      (ofIndex_of_mem_indexChanges inChanges)]
  · rw [mem_singleton.mp isRow] at ofIndex
    exact absurd ofIndex (not_ofIndex_rowKey _ _ _)

theorem lastWrite_of_mem_indexChanges
    (wellFormed : table.WellFormed)
    (declared : index ∈ table.indexes)
    (member : change ∈ indexChanges table row previous index) :
    lastWrite change.1 (rowChanges table row previous) = some change.2 := by
  refine lastWrite_of_mem (mem_append_left _
    (mem_flatMap.mpr ⟨index, declared, member⟩)) ?_
  intro other isOther sameKey
  have ofIndex := ofIndex_of_mem_indexChanges member
  rw [← sameKey] at ofIndex
  exact indexChanges_agree (wellFormed.indexes index declared)
    (mem_indexChanges_of_ofIndex wellFormed declared isOther ofIndex) member sameKey

end

variable
  {catalog : Catalog}
  {wellFormed : catalog.WellFormed}
  {store after : Bytes → Option Bytes}

theorem comprises_changed
    {kind : CatalogRow catalog → Prop} {state : RecordState}
    (before : (catalog.layout wellFormed).Comprises kind
      (catalog.view state.transaction.get))
    {changes : List Change}
    (image : ∀ change ∈ changes, ∀ value, change.2 = some value →
      ∃ record : CatalogRow catalog, kind record ∧
        (catalog.layout wellFormed).Image record change.1 value) :
    (catalog.layout wellFormed).Comprises kind
      (catalog.view (state.changed changes).transaction.get) := by
  intro key value found
  rw [Catalog.view] at found
  split at found
  · next owns =>
      rw [RecordState.get_changed] at found
      cases isLast : lastWrite key changes with
      | some held =>
          rw [isLast] at found
          exact image _ (mem_of_lastWrite isLast) value found
      | none =>
          rw [isLast] at found
          exact before key value ((Catalog.view_of_owns owns _).trans found)
  · cases found

variable {table : TableDef} {new : CatalogRow catalog} {previous : Option Row}
  {row : Row} {index : IndexDef} {entry : Keys.IndexEntry}

theorem previousEntries_of_same
    {old row : Row} (same : old.Same row) (index : IndexDef) :
    previousEntries table index (some old) = admittedEntries table index row :=
  same.admittedEntries table index

/-- Rows that are stored alike make the same changes. -/
theorem rowChanges_of_storedAlike
    {first second : Row} (alike : first.StoredAlike table second)
    (previous : Option Row) :
    rowChanges table first previous = rowChanges table second previous := by
  have sameKey : encode (first.primaryKeyValues table) =
      encode (second.primaryKeyValues table) :=
    encodeWith_congr alike.primaryKey
  have sameBody : encode (first.project table.storedColumns) =
      encode (second.project table.storedColumns) :=
    encodeWith_congr alike.columns
  have sameChanges : table.indexes.flatMap (indexChanges table first previous) =
      table.indexes.flatMap (indexChanges table second previous) := by
    refine flatMap_congr (fun index declared => ?_)
    rw [indexChanges, indexChanges, droppedChanges, droppedChanges, droppedEntries,
      droppedEntries, addedEntries, addedEntries, alike.entries index declared]
  rw [rowChanges, rowChanges, sameChanges, rowKey, rowKey, sameKey, encodeBody,
    encodeBody, sameBody]

theorem rowChanges_of_same
    {first second : Row} (same : first.Same second) (table : TableDef)
    (previous : Option Row) :
    rowChanges table first previous = rowChanges table second previous :=
  rowChanges_of_storedAlike (same.storedAlike table) previous

/-- A row's entry is there after the row is written. -/
theorem written_of_indexed
    (consistent : (catalog.layout wellFormed).Consistent store)
    (leads : ∀ key, after key =
      (lastWrite key (rowChanges new.table new.row previous)).getD (store key))
    (meets : new.Meets wellFormed store previous) {key value : Bytes}
    (indexed : new.Indexed key value) :
    after key = some value := by
  obtain ⟨index, declared, entry, member, rfl, rfl⟩ := indexed
  have tableWellFormed := wellFormed.tables new.table new.inCatalog
  cases kept : unchanged entry (previousEntries new.table index previous) with
  | true =>
      -- The entry is left, and the row that is replaced has it as well.
      have untouched : lastWrite entry.key
          (rowChanges new.table new.row previous) = none := by
        refine lastWrite_of_absent (fun change isChange sameKey => ?_)
        have ofIndex := ofIndex_of_mem_admittedEntries member
        rw [← sameKey] at ofIndex
        exact key_ne_of_unchanged member kept (mem_indexChanges_of_ofIndex
          tableWellFormed declared isChange ofIndex) sameKey
      rw [leads, untouched]
      obtain ⟨other, isOther, sameKey⟩ := any_eq_true.mp kept
      rw [beq_iff_eq] at sameKey
      cases previous with
      | none => cases isOther
      | some old =>
          obtain ⟨record, stored, isKey, same⟩ := meets
          have sameTable := (CatalogRow.table_of_key wellFormed isKey).1
          rw [previousEntries_of_same same] at isOther
          have indexed : record.Indexed entry.key other.value := by
            rw [CatalogRow.Indexed, sameTable]
            exact ⟨index, declared, other, isOther, sameKey, rfl⟩
          have isIndexed : new.Indexed entry.key entry.value :=
            ⟨index, declared, entry, member, rfl, rfl⟩
          rw [← CatalogRow.value_of_indexed wellFormed isKey indexed isIndexed]
          exact consistent.lookup stored (.inr indexed)
  | false =>
      have isAdded : (entry.key, some entry.value) ∈
          indexChanges new.table new.row previous index := by
        refine mem_append_right _ (mem_map.mpr ⟨entry, ?_, rfl⟩)
        exact mem_filter.mpr ⟨member, by rw [kept]; rfl⟩
      rw [leads, lastWrite_of_mem_indexChanges tableWellFormed declared isAdded]
      rfl

theorem removed_of_indexed
    (wellFormed : catalog.WellFormed)
    {new record : CatalogRow catalog} {old : Row}
    (leads : ∀ key, after key =
      (lastWrite key (rowChanges new.table new.row (some old))).getD (store key))
    (isKey : record.key = new.key)
    (same : old.Same record.row) {key value : Bytes}
    (indexed : record.Indexed key value)
    (notNew : ∀ value', ¬new.Indexed key value') :
    after key = none := by
  have sameTable := (CatalogRow.table_of_key wellFormed isKey).1
  rw [CatalogRow.Indexed, sameTable] at indexed
  obtain ⟨index, declared, entry, member, rfl, rfl⟩ := indexed
  have isDropped : (entry.key, none) ∈
      indexChanges new.table new.row (some old) index := by
    refine mem_append_left _ (mem_map.mpr ⟨entry, ?_, rfl⟩)
    refine mem_filter.mpr ⟨?_, ?_⟩
    · rw [previousEntries_of_same same]
      exact member
    · rw [Bool.not_eq_true', unchanged, any_eq_false]
      intro other isOther sameKey
      exact notNew other.value
        ⟨index, declared, other, isOther, beq_iff_eq.mp sameKey, rfl⟩
  rw [leads, lastWrite_of_mem_indexChanges
    (wellFormed.tables new.table new.inCatalog) declared isDropped]
  rfl

theorem kept_of_not_image
    (leads : ∀ key, after key =
      (lastWrite key (rowChanges new.table new.row previous)).getD (store key))
    {key : Bytes}
    (notNew : ∀ value, ¬(catalog.layout wellFormed).Image new key value)
    (notOld : ∀ index ∈ new.table.indexes,
      ∀ entry ∈ previousEntries new.table index previous, entry.key ≠ key) :
    after key = store key := by
  have untouched : lastWrite key (rowChanges new.table new.row previous) = none := by
    refine lastWrite_of_absent (fun change isChange sameKey => ?_)
    rcases mem_append.mp isChange with inIndexes | isRow
    · obtain ⟨index, declared, inChanges⟩ := mem_flatMap.mp inIndexes
      rcases mem_append.mp inChanges with dropped | added
      · obtain ⟨entry, inDropped, rfl⟩ := mem_map.mp dropped
        exact notOld index declared entry (mem_filter.mp inDropped).1 sameKey
      · obtain ⟨entry, inAdded, rfl⟩ := mem_map.mp added
        exact notNew entry.value (.inr ⟨index, declared, entry,
          (mem_filter.mp inAdded).1, sameKey, rfl⟩)
    · rw [mem_singleton.mp isRow] at sameKey
      exact notNew _ (.inl ⟨sameKey.symm, rfl⟩)
  rw [leads, untouched]
  rfl

/-- Writing a row over the one that is met there keeps a store consistent. -/
theorem consistent_replaced
    (consistent : (catalog.layout wellFormed).Consistent store)
    (leads : ∀ key, after key =
      (lastWrite key (rowChanges new.table new.row previous)).getD (store key))
    (meets : new.Meets wellFormed store previous)
    (free : new.Free wellFormed store) :
    (catalog.layout wellFormed).Consistent after := by
  have written : ∀ key value, (catalog.layout wellFormed).Image new key value →
        after key = some value := by
    rintro key value (⟨rfl, rfl⟩ | indexed)
    · have isLast := lastWrite_rowKey new.table new.row previous
      exact (leads new.key).trans (congrArg (Option.getD · _) isLast)
    · exact written_of_indexed consistent leads meets indexed
  cases previous with
  | none =>
      have replaced : ∀ record : CatalogRow catalog, none = some record →
          (catalog.layout wellFormed).Stored store record ∧ record.key = new.key := by
        rintro record ⟨⟩
      refine consistent.replace replaced (fun _ => meets) free written ?_ ?_
      · rintro record key value ⟨⟩
      · intro key notNew _
        refine kept_of_not_image leads notNew ?_
        rintro index _ entry ⟨⟩
  | some old =>
      obtain ⟨record, stored, isKey, same⟩ := meets
      have sameTable := (CatalogRow.table_of_key wellFormed isKey).1
      have replaced : ∀ other, some record = some other →
          (catalog.layout wellFormed).Stored store other ∧ other.key = new.key := by
        rintro _ ⟨⟩
        exact ⟨stored, isKey⟩
      refine consistent.replace replaced ?_ free written ?_ ?_
      · rintro ⟨⟩
      · rintro _ key value ⟨⟩ indexed notNew
        exact removed_of_indexed wellFormed leads isKey same indexed
          (fun value' isNew => notNew value' (.inr isNew))
      · intro key notNew notOld
        refine kept_of_not_image leads notNew ?_
        rintro index declared entry member rfl
        rw [previousEntries_of_same same] at member
        refine notOld record entry.value rfl ?_
        rw [← sameTable] at declared member
        exact ⟨index, declared, entry, member, rfl, rfl⟩

/-! ## Erasing a row -/

/-- Erasing a row that is stored keeps a store consistent. -/
theorem consistent_erased
    (consistent : (catalog.layout wellFormed).Consistent store)
    {record : CatalogRow catalog}
    (stored : (catalog.layout wellFormed).Stored store record)
    (same : row.Same record.row)
    (leads : ∀ key, after key =
      (lastWrite key (eraseChanges record.table row)).getD (store key)) :
    (catalog.layout wellFormed).Consistent after := by
  have sameKey : rowKey record.table (row.primaryKeyValues record.table) =
      record.key :=
    same.rowKey record.table
  have removals : ∀ change ∈ eraseChanges record.table row, change.2 = none := by
    intro change member
    rcases mem_append.mp member with inIndexes | isRow
    · obtain ⟨index, _, inEntries⟩ := mem_flatMap.mp inIndexes
      obtain ⟨entry, _, rfl⟩ := mem_map.mp inEntries
      rfl
    · rw [mem_singleton.mp isRow]
  refine consistent.erase stored ?_ ?_
  · intro key value image
    have member : (key, none) ∈ eraseChanges record.table row := by
      rcases image with ⟨isHome, _⟩ | ⟨index, declared, entry, isEntry, isKey, _⟩
      · refine mem_append_right _ (mem_singleton.mpr ?_)
        rw [sameKey]
        exact congrArg (·, none) isHome
      · refine mem_append_left _ (mem_flatMap.mpr
          ⟨index, declared, mem_map.mpr ⟨entry, ?_, ?_⟩⟩)
        · rw [same.admittedEntries]
          exact isEntry
        · rw [isKey]
    have isLast : lastWrite key (eraseChanges record.table row) = some none :=
      lastWrite_of_mem member (fun change isChange _ => removals change isChange)
    rw [leads, isLast]
    rfl
  · intro key notOld
    have untouched : lastWrite key (eraseChanges record.table row) = none := by
      refine lastWrite_of_absent (fun change isChange isKey => ?_)
      rcases mem_append.mp isChange with inIndexes | isRow
      · obtain ⟨index, declared, inEntries⟩ := mem_flatMap.mp inIndexes
        obtain ⟨entry, member, rfl⟩ := mem_map.mp inEntries
        rw [same.admittedEntries] at member
        exact notOld entry.value (.inr ⟨index, declared, entry, member, isKey, rfl⟩)
      · rw [mem_singleton.mp isRow] at isKey
        exact notOld _ (.inl ⟨isKey.symm.trans sameKey, rfl⟩)
    rw [leads, untouched]
    rfl

/-! ## Slots -/

theorem enforcesUniqueness_of_sameKey
    (tableWellFormed : table.WellFormed)
    (declared : index ∈ table.indexes)
    {row row' : Row} {entry entry' : IndexEntry}
    (member : entry ∈ admittedEntries table index row)
    (member' : entry' ∈ admittedEntries table index row')
    (sameKey : entry.key = entry'.key) :
    entry.enforcesUniqueness = entry'.enforcesUniqueness := by
  have indexWellFormed := tableWellFormed.indexes index declared
  obtain ⟨_, values, inSets, rfl⟩ := mem_admittedEntries.mp member
  obtain ⟨_, values', inSets', rfl⟩ := mem_admittedEntries.mp member'
  obtain ⟨sameValues, _⟩ := coded_of_indexEntry_key
    (length_of_mem_keySets indexWellFormed inSets)
    (length_of_mem_keySets indexWellFormed inSets') (primaryKeyValues_ne_nil
    tableWellFormed row) (primaryKeyValues_ne_nil tableWellFormed row') sameKey
  rw [indexEntry_eq, indexEntry_eq]
  dsimp only
  rw [slotIsUnique, slotIsUnique, any_isNull_of_coded sameValues]

theorem value_of_mem_admittedEntries
    (member : entry ∈ admittedEntries table index row) :
    entry.value =
      if entry.enforcesUniqueness then
        encode (row.primaryKeyValues table)
      else
        [] := by
  obtain ⟨_, values, _, rfl⟩ := mem_admittedEntries.mp member
  rw [indexEntry_eq]

theorem value_of_checkUnique
    {snapshot : Snapshot}
    (consistent : (catalog.layout wellFormed).Consistent (catalog.view snapshot.get))
    (inCatalog : table ∈ catalog.tables)
    (declared : index ∈ table.indexes)
    (member : entry ∈ admittedEntries table index row)
    (enforces : entry.enforcesUniqueness = true)
    (checked : checkUnique table index entry (row.primaryKeyValues table)
      snapshot = .ok ())
    {value : Bytes}
    (found : snapshot.get entry.key = some value) :
    value = entry.value := by
  have tableWellFormed := wellFormed.tables table inCatalog
  obtain ⟨record, _, isTable, entry', member', sameKey, rfl⟩ :=
    exists_record_of_ofIndex consistent.comprises inCatalog declared
      (ofIndex_of_mem_admittedEntries member) found
  have enforces' : entry'.enforcesUniqueness = true :=
    (enforcesUniqueness_of_sameKey tableWellFormed declared member' member
      sameKey).trans enforces
  rw [checkUnique, found] at checked
  obtain ⟨owner, decodes, checked⟩ := bind_eq_ok.mp checked
  rw [value_of_mem_admittedEntries member', if_pos enforces',
    liftTuple_eq_ok] at decodes
  have isOwner := canonical_of_decode record.fits decodes
  split at checked
  · next sameOwner =>
      have samePrimaryKey := (Value.beq_list_iff_canonical _ _).mp sameOwner
      refine (CatalogRow.coded_of_entries wellFormed inCatalog declared member'
        member sameKey).mpr (encodeWith_congr ?_)
      exact isOwner.symm.trans samePrimaryKey
  · cases checked

/-- A row whose new slots are free, or its own, takes no other row's. -/
theorem free_of_slots
    (consistent : (catalog.layout wellFormed).Consistent store)
    (meets : new.Meets wellFormed store previous)
    (slots : ∀ index ∈ new.table.indexes,
      ∀ entry ∈ addedEntries new.table new.row previous index,
        entry.enforcesUniqueness = true →
        ∀ value, store entry.key = some value → value = entry.value) :
    new.Free wellFormed store := by
  intro record key value value' stored indexed' indexed
  obtain ⟨sameTable, index, declared, entry, member, entry', member', rfl, rfl,
    sameKey, rfl⟩ := CatalogRow.entries_of_key wellFormed indexed indexed'
  have tableWellFormed := wellFormed.tables new.table new.inCatalog
  cases enforces : entry.enforcesUniqueness with
  | false =>
      have enforces' : entry'.enforcesUniqueness = false :=
        (enforcesUniqueness_of_sameKey tableWellFormed declared member' member
          sameKey).trans enforces
      have sameValue : entry'.value = entry.value := by
        rw [value_of_mem_admittedEntries member,
          value_of_mem_admittedEntries member', enforces, enforces']
        rfl
      rw [sameValue] at indexed'
      exact CatalogRow.key_of_indexed wellFormed indexed' indexed
  | true =>
      cases kept : unchanged entry (previousEntries new.table index previous) with
      | true =>
          obtain ⟨other, isOther, isKey⟩ := any_eq_true.mp kept
          rw [beq_iff_eq] at isKey
          cases previous with
          | none => cases isOther
          | some old =>
              obtain ⟨oldRecord, oldStored, isHome, same⟩ := meets
              have oldTable := (CatalogRow.table_of_key wellFormed isHome).1
              rw [previousEntries_of_same same] at isOther
              have oldIndexed : oldRecord.Indexed entry.key other.value := by
                rw [CatalogRow.Indexed, oldTable]
                exact ⟨index, declared, other, isOther, isKey, rfl⟩
              exact (consistent.home_unique stored oldStored (.inr indexed')
                (.inr oldIndexed)).trans isHome
      | false =>
          have isAdded : entry ∈ addedEntries new.table new.row previous index :=
            mem_filter.mpr ⟨member, by rw [kept]; rfl⟩
          have held := consistent.lookup stored (.inr indexed')
          rw [slots index declared entry isAdded enforces _ held] at indexed'
          exact CatalogRow.key_of_indexed wellFormed indexed' indexed

theorem checkUnique_of_refusedAfter
    {snapshot : Snapshot} {indexes : List IndexDef}
    (passes : refusedAfter table row previous snapshot indexes = none)
    (member : index ∈ indexes)
    (isAdded : entry ∈ addedEntries table row previous index)
    (enforces : entry.enforcesUniqueness = true) :
    checkUnique table index entry (row.primaryKeyValues table) snapshot = .ok () := by
  induction indexes with
  | nil => cases member
  | cons first rest ih =>
      rw [refusedAfter] at passes
      split at passes
      · cases passes
      · next accepted =>
          rcases mem_cons.mp member with rfl | inRest
          · have passed := findSome?_eq_none_iff.mp accepted entry isAdded
            rw [if_pos enforces] at passed
            cases checked : checkUnique table index entry
                (row.primaryKeyValues table) snapshot with
            | ok _ => rfl
            | error error =>
                rw [checked] at passed
                cases passed
          · exact ih (Option.map_eq_none_iff.mp passes) inRest

end RecordTransaction

end SlateOrm
