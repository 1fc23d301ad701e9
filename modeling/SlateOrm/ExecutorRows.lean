import SlateOrm.PlanAccess
import SlateOrm.Reads
import SlateOrm.RowReading
import SlateOrm.MemoryStoreIsolation

namespace SlateOrm

open List

/-!
# Where rows come from

Every row that a plan returns was decoded from a body that is stored, or
rebuilt from an index entry that is stored.  Which of the two, and under which
keys, is what an access path decides.
-/

namespace Cursor

variable {α β : Type}

/-- Something holds of every result of a cursor. -/
def All (holds : α → Prop) : Cursor α → Prop
  | .exhausted => True
  | .failed _ => True
  | .yields item rest => holds item ∧ rest.All holds

theorem All.of_mem_collect
    {holds : α → Prop} {cursor : Cursor α} {items : List α}
    (all : cursor.All holds)
    (collected : cursor.collect = .ok items) :
    ∀ item ∈ items, holds item := by
  induction cursor generalizing items with
  | exhausted =>
      cases collected
      intro item member
      cases member
  | failed error => cases collected
  | yields first rest ih =>
      rw [collect] at collected
      obtain ⟨others, collectedRest, isAll⟩ := bind_eq_ok.mp collected
      cases isAll
      intro item member
      rcases mem_cons.mp member with rfl | inRest
      · exact all.1
      · exact ih all.2 collectedRest item inRest

theorem collect_of_collectAtMost
    {refusal : KernelError} {limit : Nat} {cursor : Cursor α} {items : List α}
    (collected : cursor.collectAtMost refusal limit = .ok items) :
    cursor.collect = .ok items := by
  induction cursor generalizing limit items with
  | exhausted
  | failed error => cases limit <;> exact collected
  | yields first rest ih =>
      cases limit with
      | zero => cases collected
      | succ limit =>
          rw [collectAtMost] at collected
          obtain ⟨others, collectedRest, isAll⟩ := bind_eq_ok.mp collected
          cases isAll
          rw [collect, ih collectedRest]
          rfl

theorem all_ofList
    {holds : β → Prop} {make : α → Except KernelError (Option β)}
    {values : List α}
    (each : ∀ value ∈ values, ∀ item, make value = .ok (some item) → holds item) :
    (ofList make values).All holds := by
  induction values with
  | nil => trivial
  | cons value rest ih =>
      have inRest := ih (fun other member => each other (mem_cons_of_mem _ member))
      rw [ofList]
      split
      · trivial
      · exact inRest
      · next item made => exact ⟨each value (mem_cons_self ..) item made, inRest⟩

theorem all_map
    {holds : β → Prop} {change : α → β} {cursor : Cursor α}
    (all : cursor.All (fun item => holds (change item))) :
    (cursor.map change).All holds := by
  induction cursor with
  | exhausted
  | failed error => trivial
  | yields item rest ih => exact ⟨all.1, ih all.2⟩

theorem All.imp
    {holds holds' : α → Prop} {cursor : Cursor α} (all : cursor.All holds)
    (follows : ∀ item, holds item → holds' item) :
    cursor.All holds' := by
  induction cursor with
  | exhausted
  | failed error => trivial
  | yields item rest ih => exact ⟨follows item all.1, ih all.2⟩

end Cursor

theorem mem_scan
    {snapshot : Snapshot} {range : KeyRange} {order : ScanOrder}
    {entry : KeyValue} :
    entry ∈ snapshot.scan range order ↔ range.contains entry.key = true ∧
        snapshot.get entry.key = some entry.value := by
  have listed : entry ∈ snapshot.scan range order ↔
        entry ∈ ((Overlay.apply snapshot.base snapshot.pending).toList.filter
          (fun item => range.contains item.1)).map
            (fun item => (⟨item.1, item.2⟩ : KeyValue)) := by
    rw [MemoryStore.Transaction.scan_eq]
    cases order with
    | ascending => rfl
    | descending => exact mem_reverse
  rw [listed, mem_map, MemoryStore.Transaction.get_eq]
  constructor
  · rintro ⟨⟨key, value⟩, member, rfl⟩
    obtain ⟨inMap, inRange⟩ := mem_filter.mp member
    exact ⟨inRange, Std.ExtTreeMap.mem_toList_iff_getElem?_eq_some.mp inMap⟩
  · rintro ⟨inRange, inMap⟩
    exact ⟨(entry.key, entry.value), mem_filter.mpr
      ⟨Std.ExtTreeMap.mem_toList_iff_getElem?_eq_some.mpr inMap, inRange⟩, rfl⟩

theorem mem_of_index
    {table : TableDef} {id : IndexId} {index : IndexDef}
    (found : table.index id = some index) :
    index ∈ table.indexes ∧ index.id = id := by
  rw [TableDef.index] at found
  have sameId := find?_some found
  exact ⟨mem_of_find?_eq_some found, by simpa using sameId⟩

theorem mem_prefetchEntries
    {shape : RowShape} {index : IndexDef} {entries : List KeyValue}
    {queue : List (List Value)}
    (fetched : prefetchEntries shape index entries = .ok queue) :
    ∀ target ∈ queue, ∃ entry ∈ entries,
      entryTarget shape index entry = .ok target := by
  induction entries generalizing queue with
  | nil =>
      cases fetched
      intro target member
      cases member
  | cons entry rest ih =>
      rw [prefetchEntries] at fetched
      obtain ⟨first, isFirst, fetched⟩ := bind_eq_ok.mp fetched
      obtain ⟨others, areOthers, fetched⟩ := bind_eq_ok.mp fetched
      cases fetched
      intro target member
      rcases mem_cons.mp member with rfl | inRest
      · exact ⟨entry, mem_cons_self .., isFirst⟩
      · obtain ⟨other, inEntries, isTarget⟩ := ih areOthers target inRest
        exact ⟨other, mem_cons_of_mem _ inEntries, isTarget⟩

section

variable [Platform]

/-! ## Origins -/

/-- A key from which a table's rows are read. -/
inductive ReadsKey (table : TableDef) : Access → Bytes → List Value → Prop
  | point {key : List Value} :
      ReadsKey table (.pointGet key) (Keys.rowKey table key) key
  | points {keys : List (List Value)} {key : List Value} : key ∈ keys →
      ReadsKey table (.pointGets keys) (Keys.rowKey table key) key
  | scan {range : KeyRange} {key : Bytes} {primaryKey : List Value} :
      range.contains key = true →
      Keys.decodeRowKey table key = .ok primaryKey →
      ReadsKey table (.tableScan range) key primaryKey

/-- An entry that a path reads, and what it holds. -/
structure ReadsEntry (snapshot : Snapshot) (table : TableDef)
    (access : Access) (covering : Bool) (index : IndexDef)
    (indexed primaryKey : List Value) : Prop where
  found : ∃ ranges key value range,
    access.entryRanges = some (index.id, ranges, covering) ∧
      range ∈ ranges ∧ range.contains key = true ∧
      snapshot.get key = some value ∧
      Keys.decodeIndexEntry table index key value = .ok (indexed, primaryKey)
  index : index ∈ table.indexes

/-- What a row is decoded to. -/
def RowShape.Asks (shape : RowShape) (asked : Option ColumnSet) : Prop :=
  asked = wanted shape.decodeColumns shape.table ∨ asked = some shape.decodeColumns

/-- Where a row of a path comes from. -/
inductive Origin (snapshot : Snapshot) (shape : RowShape)
    (access : Access) : Row → Prop
  | stored {key body : Bytes} {primaryKey : List Value}
      {asked : Option ColumnSet} {row : Row} :
      ReadsKey shape.table access key primaryKey →
      snapshot.get key = some body →
      shape.Asks asked →
      decodeRowColumns shape.table primaryKey body asked = .ok row →
      Origin snapshot shape access (extendRow row shape.compute shape.transient none)
  | fetched {index : IndexDef} {indexed primaryKey : List Value}
      {body : Bytes} {asked : Option ColumnSet} {row : Row} :
      ReadsEntry snapshot shape.table access false index indexed primaryKey →
      readRowBody snapshot shape.table primaryKey = some body →
      shape.Asks asked →
      decodeRowColumns shape.table primaryKey body asked = .ok row →
      Origin snapshot shape access (extendRow row shape.compute shape.transient none)
  | entry {index : IndexDef} {indexed primaryKey : List Value} :
      ReadsEntry snapshot shape.table access true index indexed primaryKey →
      Origin snapshot shape access (extendRow
          (rowFromIndexEntry shape.table index indexed primaryKey shape.decodeColumns)
          shape.compute shape.transient (do
            let position ← shape.fromEntry
            let value ← indexed.head?
            return (position, value)))

variable {shape : RowShape} {snapshot : Snapshot} {index : IndexDef}

/-- A materialised row was decoded from its body. -/
theorem decoded_of_materialise
    {raw : RawRow} {row : Row}
    (made : materialise shape raw = .ok (some row)) :
    ∃ asked decoded, shape.Asks asked ∧
      decodeRowColumns shape.table raw.primaryKey raw.body asked = .ok decoded ∧
        row = extendRow decoded shape.compute shape.transient none := by
  have plain {decoded : Row} (noCompute : ¬(!shape.compute.isEmpty) = true) :
      extendRow decoded shape.compute shape.transient none = decoded := by
    rw [extendRow, if_pos]
    simpa using noCompute
  rw [materialise] at made
  split at made
  · obtain ⟨decoded, decodes, made⟩ := bind_eq_ok.mp made
    refine ⟨_, decoded, Or.inl rfl, liftSchema_eq_ok.mp decodes, ?_⟩
    have isRow := Except.ok.inj made
    split at isRow
    · exact (Option.some.inj isRow).symm
    · cases isRow
  · next noCompute =>
      split at made
      · obtain ⟨filtered, _, made⟩ := bind_eq_ok.mp made
        split at made
        · obtain ⟨decoded, decodes, made⟩ := bind_eq_ok.mp made
          cases made
          exact ⟨_, _, Or.inl rfl, liftSchema_eq_ok.mp decodes, (plain noCompute).symm⟩
        · cases made
      · obtain ⟨decoded, decodes, made⟩ := bind_eq_ok.mp made
        refine ⟨_, decoded, Or.inl rfl, liftSchema_eq_ok.mp decodes, ?_⟩
        have isRow := Except.ok.inj made
        split at isRow
        · rw [plain noCompute]
          exact (Option.some.inj isRow).symm
        · cases isRow

/-- Rows fetched for the entries of an index, queued or still to come. -/
theorem all_drainIndex
    {holds : Row → Prop} (entries : List KeyValue) (queue : List (List Value))
    (queued : ∀ target ∈ queue, ∀ row,
      materialiseFetched snapshot shape index target = .ok (some row) →
      holds row)
    (upcoming : ∀ entry ∈ entries, ∀ target row,
      entryTarget shape index entry = .ok target →
      materialiseFetched snapshot shape index target = .ok (some row) →
      holds row) :
    (drainIndex snapshot shape index entries queue).All holds := by
  induction entries generalizing queue with
  | nil => exact Cursor.all_ofList queued
  | cons entry rest ih =>
      cases queue with
      | nil => trivial
      | cons target queue =>
          have later : ∀ fetched, entryTarget shape index entry = .ok fetched →
              (drainIndex snapshot shape index rest
                (queue ++ [fetched])).All holds := by
            intro fetched isTarget
            apply ih
            · intro other member row made
              rcases mem_append.mp member with inQueue | isLast
              · exact queued other (mem_cons_of_mem _ inQueue) row made
              · rw [mem_singleton.mp isLast] at made
                exact upcoming entry (mem_cons_self ..) fetched row isTarget made
            · intro other member
              exact upcoming other (mem_cons_of_mem _ member)
          rw [drainIndex]
          cases made : materialiseFetched snapshot shape index target with
          | error error => trivial
          | ok found =>
              have first : ∀ row, found = some row → holds row := by
                rintro row rfl
                exact queued target (mem_cons_self ..) row made
              cases isTarget : entryTarget shape index entry with
              | error error =>
                  cases found with
                  | none => trivial
                  | some row => exact ⟨first row rfl, trivial⟩
              | ok fetched =>
                  cases found with
                  | none => exact later fetched isTarget
                  | some row => exact ⟨first row rfl, later fetched isTarget⟩

theorem all_indexCursor
    {entries : List KeyValue} {holds : Row → Prop}
    (each : ∀ entry ∈ entries, ∀ target row,
      entryTarget shape index entry = .ok target →
      materialiseFetched snapshot shape index target = .ok (some row) →
      holds row) :
    (indexCursor snapshot shape index entries).All holds := by
  rw [indexCursor]
  split
  · trivial
  · next queue fetched =>
      apply all_drainIndex
      · intro target member row
        obtain ⟨entry, inEntries, isTarget⟩ := mem_prefetchEntries fetched target member
        exact each entry (mem_of_mem_take inEntries) target row isTarget
      · intro entry member
        exact each entry (mem_of_mem_drop member)

theorem decoded_of_materialiseFetched
    {primaryKey : List Value} {row : Row}
    (made : materialiseFetched snapshot shape index primaryKey = .ok (some row)) :
    ∃ body asked decoded, readRowBody snapshot shape.table primaryKey = some body ∧
        shape.Asks asked ∧
        decodeRowColumns shape.table primaryKey body asked = .ok decoded ∧
        row = extendRow decoded shape.compute shape.transient none := by
  rw [materialiseFetched] at made
  split at made
  · cases made
  · next body found =>
      obtain ⟨asked, decoded, asks, decodes, isRow⟩ := decoded_of_materialise made
      exact ⟨body, asked, decoded, found, asks, decodes, isRow⟩

/-- The rows that index entries of some ranges give. -/
theorem all_indexSource
    {access : Access} {id : IndexId} {ranges reading : List KeyRange}
    {covering : Bool} {order : ScanOrder}
    (isAccess : access.entryRanges = some (id, ranges, covering))
    (read : reading ⊆ ranges) :
    (indexSource snapshot shape id reading covering order).All
      (Origin snapshot shape access) := by
  rw [indexSource]
  split
  · trivial
  · next index found =>
      obtain ⟨inTable, sameId⟩ := mem_of_index found
      have readsEntry {entry : KeyValue} {indexed primaryKey : List Value}
          (member : entry ∈ reading.flatMap (fun range => snapshot.scan range order))
          (decodes : Keys.decodeIndexEntry shape.table index entry.key
            entry.value = .ok (indexed, primaryKey)) :
          ReadsEntry snapshot shape.table access covering index indexed
            primaryKey := by
        obtain ⟨range, inReading, inScan⟩ := mem_flatMap.mp member
        obtain ⟨inRange, isStored⟩ := mem_scan.mp inScan
        exact ⟨⟨ranges, entry.key, entry.value, range, sameId ▸ isAccess,
          read inReading, inRange, isStored, decodes⟩, inTable⟩
      cases covering with
      | true =>
          refine Cursor.all_ofList (fun entry member row made => ?_)
          rw [materialiseEntry] at made
          obtain ⟨⟨indexed, primaryKey⟩, decodes, made⟩ := bind_eq_ok.mp made
          have isRow := Except.ok.inj made
          split at isRow
          · rw [← Option.some.inj isRow]
            exact Origin.entry (readsEntry member decodes)
          · cases isRow
      | false =>
          refine all_indexCursor (fun entry member target row isTarget made => ?_)
          rw [entryTarget] at isTarget
          obtain ⟨⟨indexed, primaryKey⟩, decodes, isTarget⟩ := bind_eq_ok.mp isTarget
          cases isTarget
          obtain ⟨body, asked, decoded, found, asks, decodesRow, rfl⟩ :=
            decoded_of_materialiseFetched made
          exact Origin.fetched (readsEntry member decodes) found asks decodesRow

/-- Every row of a path has an origin that the path reads. -/
theorem all_source
    (snapshot : Snapshot) (shape : RowShape) (order : ScanOrder)
    (access : Access) :
    (source snapshot shape order access).All (Origin snapshot shape access) := by
  cases access with
  | nothing => trivial
  | pointGet key =>
      rw [source, pointSource]
      split
      · trivial
      · next body found =>
          split
          · trivial
          · next row decodes =>
              dsimp only
              split
              · exact ⟨Origin.stored ReadsKey.point found (Or.inr rfl)
                  (liftSchema_eq_ok.mp decodes), trivial⟩
              · trivial
  | pointGets keys =>
      refine Cursor.all_ofList (fun key member row made => ?_)
      rw [materialisePoint] at made
      split at made
      · cases made
      · next body found =>
          obtain ⟨asked, decoded, asks, decodes, rfl⟩ := decoded_of_materialise made
          exact Origin.stored (ReadsKey.points member) found asks decodes
  | tableScan range =>
      refine Cursor.all_ofList (fun entry member row made => ?_)
      obtain ⟨inRange, isStored⟩ := mem_scan.mp member
      rw [materialiseStored] at made
      obtain ⟨primaryKey, isKey, made⟩ := bind_eq_ok.mp made
      obtain ⟨asked, decoded, asks, decodes, rfl⟩ := decoded_of_materialise made
      exact Origin.stored (ReadsKey.scan inRange isKey) isStored asks decodes
  | indexScan index range covering => exact all_indexSource rfl (List.Subset.refl _)
  | indexScans index ranges covering =>
      refine all_indexSource rfl ?_
      cases order with
      | ascending => exact List.Subset.refl _
      | descending => exact fun range member => mem_reverse.mp member

theorem all_openCursor
    {limits : ExecutionLimits} {table : TableDef} {plan : Plan} {query : Query}
    {cursor : Cursor Row}
    (opened : openCursor limits snapshot table plan query = .ok cursor) :
    cursor.All (fun row => ∃ origin,
      Origin snapshot (rowShape table plan query.compute) plan.access origin ∧
        row = conceal origin plan.concealed) := by
  have rows := all_source snapshot (rowShape table plan query.compute)
    plan.order plan.access
  rw [openCursor] at opened
  split at opened
  · cases opened
  · dsimp only at opened
    split at opened
    · cases opened
      exact Cursor.all_map (rows.imp (fun row origin => ⟨row, origin, rfl⟩))
    · obtain ⟨collected, isCollected, opened⟩ := bind_eq_ok.mp opened
      cases opened
      refine Cursor.all_map (Cursor.all_ofList (fun row member item made => ?_))
      cases made
      have inRows := mem_mergeSort.mp member
      exact ⟨row, rows.of_mem_collect
        (Cursor.collect_of_collectAtMost isCollected) row inRows, rfl⟩

end

/-! ## Widths -/

theorem fillIndexed_eq
    (index : IndexDef) (indexed : List Value) (wanted : ColumnSet)
    (values : List Value) :
    fillIndexed index indexed wanted values = ((index.columns.zip indexed).filter
        (fun pair => pair.1.ordinal ∈ wanted)).foldl
          (fun values pair => values.set pair.1.ordinal pair.2) values := by
  rw [fillIndexed, foldl_filter]
  simp only [decide_eq_true_eq]

@[simp] theorem length_fillIndexed
    (index : IndexDef) (indexed : List Value) (wanted : ColumnSet)
    (values : List Value) :
    (fillIndexed index indexed wanted values).length = values.length := by
  rw [fillIndexed_eq]
  exact length_foldl_set (fun pair : IndexColumn × Value => pair.1.ordinal)
    Prod.snd _ values

theorem length_rowFromIndexEntry
    (table : TableDef) (index : IndexDef) (indexed primaryKey : List Value)
    (wanted : ColumnSet) :
    (rowFromIndexEntry table index indexed primaryKey wanted).values.length =
      table.columns.length := by
  rw [rowFromIndexEntry, length_fillKey, length_fillIndexed, length_replicate]

@[simp] theorem length_conceal
    (row : Row) (concealed : List Ordinal) :
    (conceal row concealed).values.length = row.values.length :=
  length_foldl_set id (fun _ => .null) concealed row.values

@[simp] theorem conceal_nil
    (row : Row) :
    conceal row [] = row :=
  rfl

section

variable [Platform]

variable {snapshot : Snapshot} {table : TableDef} {cursor : Cursor Row}
  {query : Query} {plan : Plan} {context : SecurityContext}
  {reads : SecuredReads}

theorem Origin.length
    {shape : RowShape} {access : Access} {row : Row}
    (origin : Origin snapshot shape access row)
    (noCompute : shape.compute = []) :
    row.values.length = shape.table.columns.length := by
  have plain (row : Row) (held : Option (Nat × Value)) :
      extendRow row shape.compute shape.transient held = row := by
    rw [extendRow, if_pos (by rw [noCompute]; rfl)]
  cases origin with
  | stored _ _ _ decodes
  | fetched _ _ _ decodes =>
      rw [plain]
      exact length_decodeRowColumns decodes
  | entry _ =>
      rw [plain]
      exact length_rowFromIndexEntry ..

theorem length_openCursor
    {limits : ExecutionLimits}
    (noCompute : query.compute = [])
    (opened : openCursor limits snapshot table plan query = .ok cursor) :
    cursor.All (fun row => row.values.length = table.columns.length) := by
  refine (all_openCursor opened).imp (fun row origin => ?_)
  obtain ⟨source, hasOrigin, rfl⟩ := origin
  rw [length_conceal]
  exact hasOrigin.length noCompute

omit [Platform] in
theorem planned_of_planSecured
    (planned : reads.planSecured context table query = .ok plan) :
    ∃ rowFilter, reads.security.rowFilterWith context table .read
          (if query.includeDeleted then .visible else .hidden) =
        .ok rowFilter ∧
      plan = planHinted table (query.filter.andThen rowFilter) query.order
        query.projection (reads.statistics table) query.sort query.hint
        query.compute := by
  rw [SecuredReads.planSecured] at planned
  replace planned := ok_of_bind planned
  replace planned := ok_of_bind planned
  split at planned
  · cases planned
  · obtain ⟨rowFilter, isFilter, planned⟩ := bind_eq_ok.mp planned
    cases planned
    exact ⟨rowFilter, isFilter, rfl⟩

omit [Platform] in
theorem planned_of_plan
    (readsAll : reads.security.readable context table = none)
    (planned : reads.plan context table query = .ok plan) :
    ∃ rowFilter, reads.security.rowFilterWith context table .read
          (if query.includeDeleted then .visible else .hidden) =
        .ok rowFilter ∧
      plan = planHinted table (query.filter.andThen rowFilter) query.order
        query.projection (reads.statistics table) query.sort query.hint
        query.compute := by
  replace planned := ok_of_bind planned
  rw [readsAll] at planned
  exact planned_of_planSecured planned

theorem opened_of_execute
    (executed : reads.execute snapshot context table query = .ok cursor) :
    ∃ plan, reads.plan context table query = .ok plan ∧
      openCursor reads.limits snapshot table plan query = .ok cursor :=
  bind_eq_ok.mp executed

theorem opened_of_executeForWrite
    (executed : reads.executeForWrite snapshot context table query = .ok cursor) :
    ∃ plan, reads.planSecured context table query = .ok plan ∧
      openCursor reads.limits snapshot table plan query = .ok cursor := by
  rw [SecuredReads.executeForWrite] at executed
  replace executed := ok_of_bind executed
  split at executed
  · replace executed := ok_of_bind executed
    exact bind_eq_ok.mp executed
  · exact bind_eq_ok.mp executed

end

end SlateOrm
