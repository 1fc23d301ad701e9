import SlateOrm.QueryReads
import SlateOrm.RowOrder

namespace SlateOrm

open List Keys Option MatchContext

/-!
# Walks that are sorted

A plan without a sort of its own claims that its path yields rows in the order
that the query asks for.  The keys of a path come in the order of their bytes,
which is the order of the columns that the path is over.
-/

/-! ## Ranges in order -/

variable {bytes : Bytes}

theorem isLE_of_isPrefix
    {key : Bytes}
    (begins : bytes <+: key) :
    (compare bytes key).isLE = true := by
  have above := ((isPrefix_iff_between bytes key).mp begins).1
  have swapped : compare bytes key = (compare key bytes).swap := Std.OrientedCmp.eq_swap
  rw [swapped, Ordering.isLE_swap]
  exact above

/-- A range starts no later than what is left of it. -/
theorem startBytes_intersect
    {first : KeyRange}
    (isStart : startBytes first = some bytes)
    (second : KeyRange) :
    ∃ bound, startBytes (first.intersect second) = some bound ∧
      (compare bytes bound).isLE = true := by
  have itself : (compare bytes bytes).isLE = true := by
    rw [Std.ReflOrd.compare_self]
    rfl
  have least : ∀ other : Bytes, (compare bytes other).isGT = false →
      (compare bytes other).isLE = true := by
    intro other
    cases compare bytes other <;> decide
  have greatest : ∀ other : Bytes, (compare other bytes).isGT = true →
      (compare bytes other).isLE = true := by
    intro other isGT
    rw [Ordering.isGT_iff_eq_gt] at isGT
    rw [Std.OrientedCmp.lt_of_gt isGT]
    rfl
  rw [startBytes] at isStart
  rw [KeyRange.intersect, startBytes]
  dsimp only
  cases isFirst : first.start with
  | unbounded =>
      rw [isFirst] at isStart
      cases isStart
  | included x =>
      rw [isFirst] at isStart
      cases isStart
      cases second.start with
      | unbounded => exact ⟨bytes, rfl, itself⟩
      | included y
      | excluded y =>
          rw [KeyRange.maxStart]
          cases isGT : (compare bytes y).isGT with
          | true => exact ⟨bytes, rfl, itself⟩
          | false => exact ⟨y, rfl, least y isGT⟩
  | excluded x =>
      rw [isFirst] at isStart
      cases isStart
      cases second.start with
      | unbounded => exact ⟨bytes, rfl, itself⟩
      | included y
      | excluded y =>
          rw [KeyRange.maxStart]
          cases isGT : (compare y bytes).isGT with
          | true => exact ⟨y, rfl, greatest y isGT⟩
          | false => exact ⟨bytes, rfl, itself⟩

theorem startBytes_foldl
    {keyPrefix : Bytes} {direction : Direction} (bounds : List (CmpOp × Value))
    {range : KeyRange}
    (isStart : startBytes range = some bytes) :
    ∃ bound, startBytes (bounds.foldl (fun range bound =>
        range.intersect (boundFor keyPrefix bound.1 bound.2 direction))
        range) = some bound ∧
      (compare bytes bound).isLE = true := by
  induction bounds generalizing range bytes with
  | nil =>
      refine ⟨bytes, isStart, ?_⟩
      rw [Std.ReflOrd.compare_self]
      rfl
  | cons bound rest ih =>
      obtain ⟨next, isNext, isLE⟩ := startBytes_intersect isStart
        (boundFor keyPrefix bound.1 bound.2 direction)
      obtain ⟨last, isLast, isLE'⟩ := ih isNext
      exact ⟨last, isLast, Std.TransCmp.isLE_trans isLE isLE'⟩

theorem startBytes_matchKey
    (base : Bytes) (keyColumns : List (Ordinal × Direction))
    (constraints : Constraints) :
    ∃ bound, startBytes (matchKey base keyColumns constraints) = some bound ∧
      (compare (base ++ (equalityPrefix constraints keyColumns).1)
        bound).isLE = true := by
  have ofPrefix : ∀ bytes : Bytes, ∃ bound, startBytes (.ofPrefix bytes) = some bound ∧
        (compare bytes bound).isLE = true :=
    fun bytes => ⟨bytes, rfl, isLE_of_isPrefix prefix_rfl⟩
  rw [matchKey]
  split
  next bytes unbound isPrefix =>
  rw [isPrefix]
  dsimp only
  split
  · exact ofPrefix _
  · split
    · exact ofPrefix _
    · split
      · split
        · next start _ =>
            obtain ⟨bound, isStart, isLE⟩ := ofPrefix (base ++ bytes ++ start)
            exact ⟨bound, isStart, Std.TransCmp.isLE_trans
              (isLE_of_isPrefix (prefix_append _ _)) isLE⟩
        · exact ofPrefix _
      · exact startBytes_foldl _ rfl

theorem isLE_of_startBytes
    {range : KeyRange} {key : Bytes}
    (isStart : startBytes range = some bytes)
    (within : range.contains key = true) :
    (compare bytes key).isLE = true := by
  rw [KeyRange.contains, Bool.and_eq_true] at within
  refine KeyRange.isLE_of_aboveStart within.1 ?_
  rw [startBytes] at isStart
  split at isStart
  · cases isStart
  · next isBound =>
      cases isStart
      exact Or.inl isBound
  · next isBound =>
      cases isStart
      exact Or.inr isBound

theorem isPrefix_of_between
    {key other : Bytes}
    (begins : bytes <+: key)
    (above : (compare bytes other).isLE = true)
    (below : (compare other key).isLE = true) :
    bytes <+: other := by
  obtain ⟨-, stops⟩ := (isPrefix_iff_between bytes key).mp begins
  refine (isPrefix_iff_between bytes other).mpr ⟨?_, ?_⟩
  · have swapped : compare other bytes = (compare bytes other).swap :=
      Std.OrientedCmp.eq_swap
    rw [swapped, Ordering.isGE_swap]
    exact above
  · intro successor isSuccessor
    have isLess := stops successor isSuccessor
    rw [Ordering.isLT_iff_eq_lt] at isLess ⊢
    exact Std.TransCmp.lt_of_isLE_of_lt below isLess

variable {constraints : Constraints} {ranges : List KeyRange}

/-- The ranges for a list's values hold keys of rows one after the other. -/
theorem ordered_inRanges
    {keyColumns : List (Ordinal × Direction)} {base : Bytes}
    (made : inRanges base keyColumns constraints = some ranges) :
    ranges.Pairwise (fun range other => ∀ (key : Bytes) (row : Columns),
      constraints.Met row →
      (∀ entry ∈ keyColumns, (row.valueOrNull entry.1).Ordered) →
      ∀ rest : Bytes, range.contains key = true →
        other.contains (base ++ encodeColumns row keyColumns ++ rest) = true →
        compare key (base ++ encodeColumns row keyColumns ++ rest) = .lt) := by
  obtain ⟨ordinal, direction, constraint, isFree, found, apart, sorted⟩ :=
    pinned_inRanges made
  refine (apart.and sorted).imp ?_
  rintro range other ⟨⟨value, value', differs, rfl, rfl⟩, noLater⟩ key row met
    ordered rest within within'
  by_contra notLess
  have below : (compare (base ++ encodeColumns row keyColumns ++ rest)
      key).isLE = true := by
    have swapped : compare (base ++ encodeColumns row keyColumns ++ rest) key =
        (compare key (base ++ encodeColumns row keyColumns ++ rest)).swap :=
      Std.OrientedCmp.eq_swap
    rw [swapped, Ordering.isLE_swap]
    exact Ordering.isGE_iff_ne_lt.mpr notLess
  obtain ⟨start, isStart, fixes⟩ := startBytes_matchKey base keyColumns
    (pinColumn constraints ordinal value)
  obtain ⟨start', isStart', -⟩ := startBytes_matchKey base keyColumns
    (pinColumn constraints ordinal value')
  rw [startsNoLater, isStart, isStart'] at noLater
  have above := Std.TransCmp.isLE_trans (Std.TransCmp.isLE_trans fixes noLater)
    (isLE_of_startBytes isStart' within')
  -- The row has the values of both ranges, which differ.
  exact differs ((canonical_of_contains_pinned met ordered isFree found
    (isPrefix_of_between (equalityPrefix_isPrefix within) above
    below)).symm.trans (canonical_of_contains_pinned met ordered isFree found
    (equalityPrefix_isPrefix within')))

/-! ## Entries in order -/

/--
Entries compare by what is indexed, and then by the primary key, also where the
key leaves that out.
-/
theorem Keys.compare_indexEntry
    {table : TableDef} {index : IndexDef}
    {values values' primaryKey primaryKey' : List Value}
    (length : values.length = index.keyDirections.length)
    (length' : values'.length = index.keyDirections.length)
    (nonempty : primaryKey ≠ [])
    (nonempty' : primaryKey' ≠ [])
    {slots keys : Ordering}
    (slotsDecided : OrderedCode.DecidedBy (slotBytes table index values primaryKey)
      (slotBytes table index values' primaryKey') slots)
    (keysDecided : OrderedCode.DecidedBy (encode primaryKey) (encode primaryKey') keys)
    (differs : (indexEntry table index values primaryKey).key ≠
      (indexEntry table index values' primaryKey').key) :
    compare (indexEntry table index values primaryKey).key
        (indexEntry table index values' primaryKey').key =
      slots.then keys := by
  rw [indexEntry_eq, indexEntry_eq] at differs ⊢
  rw [entryBytes, entryBytes] at differs ⊢
  rw [OrderedCode.DecidedBy.refl _ _ _, Ordering.eq_then, slotsDecided]
  cases slots with
  | lt
  | gt => rfl
  | eq =>
      have sameSlot := Std.LawfulEqOrd.compare_eq_iff_eq.mp slotsDecided.compare_eq
      have sameUnique : slotIsUnique index values = slotIsUnique index values' :=
        slotIsUnique_of_coded (coded_of_slotBytes length length' nonempty
          nonempty' (congrArg (· ++ []) sameSlot)).1
      rw [← sameUnique] at differs ⊢
      cases isUnique : slotIsUnique index values with
      | true =>
          rw [isUnique, sameSlot] at differs
          exact absurd rfl differs
      | false => exact congrArg _ keysDecided.compare_eq

namespace MatchContext

variable
  [Platform]
  {context : MatchContext}
  {row row' read read' : Row}

/-- A row as a path reads it: what an index holds for what is computed. -/
structure ReadAs (context : MatchContext) (access : Access)
    (row read : Row) : Prop where
  width : read.values.length = row.values.length + context.compute.length
  stored : ∀ ordinal < context.table.columns.length, read.get ordinal = row.get ordinal
  met : context.constraints.Met read.get
  held : ∀ id ranges covering, access.entryRanges = some (id, ranges, covering) →
      EntryWithin context.table row id ranges →
        ∀ index ∈ context.table.indexes, index.id = id → context.Held index row read.get

theorem Admits.readAs
    (admits : context.Admits row) {access : Access}
    (held : ∀ id ranges covering, access.entryRanges = some (id, ranges, covering) →
        EntryWithin context.table row id ranges →
          ∀ index ∈ context.table.indexes, index.id = id →
            context.Held index row (extendRow row context.compute [] none).get) :
    context.ReadAs access row (extendRow row context.compute [] none) :=
  ⟨length_extendRow row context.compute, fun _ inside =>
    get_extendRow _ (admits.keyable.width ▸ inside), admits.met, held⟩

variable
  (wellFormed : context.table.WellFormed)
  (admits : context.Admits row)
  (admits' : context.Admits row')

include wellFormed admits

omit admits in
theorem primaryKey_decided
    (keyable : row.Keyable context.table)
    (stored : ∀ ordinal < context.table.columns.length,
      read.get ordinal = row.get ordinal)
    (stored' : ∀ ordinal < context.table.columns.length,
      read'.get ordinal = row'.get ordinal) :
    OrderedCode.DecidedBy (encode (row.primaryKeyValues context.table))
      (encode (row'.primaryKeyValues context.table))
      (columnOrder read.get read'.get (primaryKeyColumns context.table)) := by
  have isKey {row read : Row} (stored : ∀ ordinal <
      context.table.columns.length, read.get ordinal = row.get ordinal) :
      row.primaryKeyValues context.table =
        context.table.primaryKey.map (Columns.valueOrNull read.get) := by
    refine map_congr_left (fun ordinal inKey => ?_)
    obtain ⟨declared, found, -⟩ := wellFormed.key ordinal inKey
    rw [Columns.valueOrNull, stored _ (List.getElem?_eq_some_iff.mp found).1]
    rfl
  rw [isKey stored, isKey stored', encode_map_valueOrNull, encode_map_valueOrNull]
  refine encodeColumns_decided (fun column member => ?_)
  obtain ⟨ordinal, inKey, rfl⟩ := mem_map.mp member
  obtain ⟨declared, found, -⟩ := wellFormed.key ordinal inKey
  rw [Columns.valueOrNull, stored _ (List.getElem?_eq_some_iff.mp found).1]
  exact Value.ordered_of_isKeyable (keyable.key ordinal inKey)

include admits'

/-- Two keys read from the ranges of an index come as columns of their rows. -/
def FollowsColumns (context : MatchContext) (index : IndexDef)
    (ranges : List KeyRange) (natural : List (Ordinal × Direction))
    (row row' read read' : Row) : Prop :=
  ∀ entry ∈ admittedEntries context.table index row,
    ∀ entry' ∈ admittedEntries context.table index row',
      (∃ range ∈ ranges, range.contains entry.key = true) →
      (∃ range ∈ ranges, range.contains entry'.key = true) →
      entry.key ≠ entry'.key →
        compare entry.key entry'.key = columnOrder read.get read'.get natural

variable {index : IndexDef} {candidate : Candidate}
  (isRead : context.ReadAs candidate.access row read)
  (isRead' : context.ReadAs candidate.access row' read')

include isRead isRead'

/-- The entries of a term come in the order of the primary key. -/
theorem followsColumns_matchTextIndex
    (member : index ∈ context.table.indexes)
    (isText : index.text = true)
    (matched : matchTextIndex context index = some candidate) :
    ∃ range, candidate.access = .indexScan index.id range false ∧
      FollowsColumns context index [range]
        (primaryKeyColumns context.table) row row' read read' := by
  obtain ⟨term, isTerm, isAccess⟩ := access_of_matchTextIndex admits matched
  obtain ⟨term', isTerm', isAccess'⟩ := access_of_matchTextIndex admits' matched
  obtain rfl : term = term' := some.inj (isTerm.symm.trans isTerm')
  refine ⟨_, isAccess, ?_⟩
  have sameTenant : encodeColumns (extendRow row context.compute [] none).get
        (tenantColumns context.table) =
      encodeColumns (extendRow row' context.compute [] none).get
        (tenantColumns context.table) := by
    rw [isAccess] at isAccess'
    injection isAccess' with _ sameRange _
    injection sameRange with sameStart _
    injection sameStart with samePrefix
    exact append_cancel_left (append_cancel_right samePrefix)
  intro entry inEntries entry' inEntries' within within' differs
  obtain ⟨range, isRange, within⟩ := within
  obtain ⟨range', isRange', within'⟩ := within'
  rw [mem_singleton.mp isRange, KeyRange.contains_ofPrefix] at within
  rw [mem_singleton.mp isRange', KeyRange.contains_ofPrefix, sameTenant] at within'
  obtain rfl := entry_of_term wellFormed admits member isText inEntries within
  obtain rfl := entry_of_term wellFormed admits' member isText inEntries' within'
  have length : [Value.str term].length = index.keyDirections.length := by
    obtain ⟨-, notComputed, column, declared, single, -⟩ :=
      (wellFormed.indexes index member).text isText
    rw [IndexDef.keyDirections, notComputed]
    simp [single]
  have slots : OrderedCode.DecidedBy (slotBytes context.table index [.str term]
        (row.primaryKeyValues context.table))
      (slotBytes context.table index [.str term]
        (row'.primaryKeyValues context.table)) .eq := by
    rw [encodeColumns_tenantColumns wellFormed admits,
      encodeColumns_tenantColumns wellFormed admits', sameTenant]
    exact OrderedCode.DecidedBy.refl _
  rw [compare_indexEntry length length (primaryKeyValues_ne_nil wellFormed row)
    (primaryKeyValues_ne_nil wellFormed row') slots
    (primaryKey_decided wellFormed admits.keyable isRead.stored isRead'.stored) differs]
  rfl

omit admits' in
theorem followsColumns_of_indexKeyColumns
    {keyColumns : List (Ordinal × Direction)} {covering : Bool}
    (member : index ∈ context.table.indexes)
    (isRanges : candidate.access.entryRanges = some (index.id, ranges, covering))
    (notText : index.text = false)
    (isKey : indexKeyColumns context index = some keyColumns) :
    FollowsColumns context index ranges
      (keyColumns ++ primaryKeyColumns context.table) row row' read read' := by
  intro entry inEntries entry' inEntries' within within' differs
  have held := isRead.held _ _ _ isRanges
    ⟨index, member, rfl, entry, inEntries, within⟩ index member rfl
  have held' := isRead'.held _ _ _ isRanges
    ⟨index, member, rfl, entry', inEntries', within'⟩ index member rfl
  obtain ⟨-, values, isSet, rfl⟩ := mem_admittedEntries.mp inEntries
  obtain ⟨-, values', isSet', rfl⟩ := mem_admittedEntries.mp inEntries'
  have length := length_of_mem_keySets (wellFormed.indexes index member) isSet
  have length' := length_of_mem_keySets (wellFormed.indexes index member) isSet'
  rw [IndexDef.keySets, if_pos (by simpa using notText)] at isSet isSet'
  obtain rfl := mem_singleton.mp isSet
  obtain rfl := mem_singleton.mp isSet'
  have slots : OrderedCode.DecidedBy _ (encodeColumns read'.get keyColumns) _ :=
    encodeColumns_decided (held.ordered keyColumns isKey)
  rw [← held.slots keyColumns isKey, ← held'.slots keyColumns isKey] at slots
  rw [columnOrder_append, compare_indexEntry length length' (primaryKeyValues_ne_nil
    wellFormed row) (primaryKeyValues_ne_nil wellFormed row') slots
    (primaryKey_decided wellFormed admits.keyable isRead.stored isRead'.stored) differs]

/-- The ranges that an index is read in hold entries one after the other. -/
def RangesFollow (context : MatchContext) (index : IndexDef)
    (ranges : List KeyRange) (row row' : Row) : Prop :=
  ranges.Pairwise (fun range other =>
    ∀ entry ∈ admittedEntries context.table index row,
      ∀ entry' ∈ admittedEntries context.table index row',
        range.contains entry.key = true → other.contains entry'.key = true →
          compare entry.key entry'.key = .lt)

/-- What a path comes to is in an order of columns. -/
def Follows (context : MatchContext) (natural : List (Ordinal × Direction))
    (row row' read read' : Row) (access : Access) : Prop :=
  (∀ id ranges covering, access.entryRanges = some (id, ranges, covering) →
    ∀ index ∈ context.table.indexes, index.id = id →
      FollowsColumns context index ranges natural row row' read read' ∧
      RangesFollow context index ranges row row') ∧
  (∀ range, access = .tableScan range → natural = primaryKeyColumns context.table) ∧
  (∀ keys, access = .pointGets keys → natural = [])

/-- The path over an index is in the order of its columns. -/
theorem follows_matchIndex
    (ordered : context.ordered = true)
    (member : index ∈ context.table.indexes)
    (matched : matchIndex context index = some candidate) :
    Follows context candidate.naturalOrder row row' read read'
      candidate.access := by
  have ofIndex {ranges : List KeyRange} {covering : Bool}
      (isRanges : candidate.access.entryRanges = some (index.id, ranges, covering))
      (columns : FollowsColumns context index ranges candidate.naturalOrder
        row row' read read')
      (follow : RangesFollow context index ranges row row') :
      Follows context candidate.naturalOrder row row' read read'
        candidate.access := by
    refine ⟨?_, ?_, ?_⟩
    · intro id ranges' covering' isRanges' other inIndexes sameId
      rw [isRanges] at isRanges'
      cases isRanges'
      obtain rfl : other = index := inj_on_of_nodup_map
        wellFormed.indexIds inIndexes member sameId
      exact ⟨columns, follow⟩
    · intro range isScan
      rw [isScan] at isRanges
      cases isRanges
    · intro keys isPoints
      rw [isPoints] at isRanges
      cases isRanges
  rw [matchIndex] at matched
  split at matched
  · cases matched
  · split at matched
    · next isText =>
        have natural : candidate.naturalOrder = primaryKeyColumns context.table := by
          obtain ⟨_, -, made⟩ := bind_eq_some_iff.mp matched
          dsimp only at made
          rw [if_pos ordered] at made
          split at made
          all_goals
            obtain ⟨_, -, made⟩ := bind_eq_some_iff.mp made
            cases made
            rfl
        obtain ⟨range, isAccess, columns⟩ := followsColumns_matchTextIndex
          wellFormed admits admits' isRead isRead' member isText matched
        refine ofIndex (congrArg Access.entryRanges isAccess)
          (natural ▸ columns) (pairwise_singleton _ _)
    · next notText =>
        rw [Bool.not_eq_true] at notText
        obtain ⟨keyColumns, isKey, matched⟩ := bind_eq_some_iff.mp matched
        have columns {ranges : List KeyRange} {covering : Bool}
            (isRanges : candidate.access.entryRanges =
              some (index.id, ranges, covering)) :=
          followsColumns_of_indexKeyColumns wellFormed admits isRead isRead'
            member isRanges notText isKey
        have follow {ranges : List KeyRange} {covering : Bool}
            (isRanges : candidate.access.entryRanges =
              some (index.id, ranges, covering))
            (made : inRanges (indexPrefix context.table index none)
              keyColumns context.constraints = some ranges) :
            RangesFollow context index ranges row row' := by
          refine (ordered_inRanges made).imp_of_mem ?_
          intro range other _ inRanges less entry inEntries entry' inEntries'
            within within'
          have held := isRead'.held _ _ _ isRanges ⟨index, member, rfl, entry',
            inEntries', other, inRanges, within'⟩ index member rfl
          obtain ⟨-, values, isSet, rfl⟩ := mem_admittedEntries.mp inEntries'
          rw [IndexDef.keySets, if_pos (by simpa using notText)] at isSet
          rw [mem_singleton.mp isSet, indexEntry_eq, ← indexPrefix_none context.table,
            entryBytes, held.slots keyColumns isKey, ← append_assoc] at within' ⊢
          exact less entry.key _ held.met (held.ordered keyColumns isKey) _
            within within'
        dsimp only at matched
        split at matched
        · next range made =>
            cases matched
            exact ofIndex rfl (columns rfl) (pairwise_singleton _ _)
        · next ranges _ made =>
            cases matched
            exact ofIndex rfl (columns rfl) (follow rfl made)
        · cases matched
          exact ofIndex rfl (columns rfl) (pairwise_singleton _ _)

omit isRead isRead' in
theorem follows_candidates
    (ordered : context.ordered = true)
    {hint : Option AccessHint} :
    ∀ candidate ∈ candidates context hint, context.ReadAs candidate.access row read →
      context.ReadAs candidate.access row' read' →
        Follows context candidate.naturalOrder row row' read read'
          candidate.access := by
  refine forall_candidates ?_ ?_ ?_
  · intro _ _
    rw [matchPrimaryKey, if_pos ordered]
    split
    · split
      · exact ⟨by rintro _ _ _ ⟨⟩, fun _ _ => rfl, by rintro _ ⟨⟩⟩
      · exact ⟨by rintro _ _ _ ⟨⟩, by rintro _ ⟨⟩, by rintro _ ⟨⟩⟩
    · exact ⟨by rintro _ _ _ ⟨⟩, fun _ _ => rfl, by rintro _ ⟨⟩⟩
  · intro candidate member _ _
    obtain ⟨keys, -, rfl⟩ := map_eq_some_iff.mp (mem_toList.mp member)
    exact ⟨by rintro _ _ _ ⟨⟩, by rintro _ ⟨⟩, fun _ _ => rfl⟩
  · intro chosen inTable candidate member isRead isRead'
    obtain ⟨index, isChosen, matched⟩ := mem_filterMap.mp member
    exact follows_matchIndex wellFormed admits admits' isRead isRead' ordered
      (inTable isChosen) matched

end MatchContext

/-! ## Walks in order -/

section

variable {α : Type}

theorem ScanOrder.pairwise_arrange
    {chosen : α → Prop} {key : α → Bytes} {values : List α}
    (ascending : values.Pairwise (fun value other =>
      chosen value → chosen other → compare (key value) (key other) = .lt))
    (order : ScanOrder) :
    (order.arrange values).Pairwise (fun value other =>
      chosen value → chosen other →
        order.orient (compare (key value) (key other)) = .lt) := by
  cases order with
  | ascending => exact ascending
  | descending =>
      refine pairwise_reverse.mpr (ascending.imp ?_)
      intro value other less isChosen isChosen'
      have swapped : compare (key other) (key value) =
          (compare (key value) (key other)).swap :=
        Std.OrientedCmp.eq_swap
      rw [swapped, less isChosen' isChosen]
      rfl

end

theorem ScanOrder.flatMap_scan
    (order : ScanOrder) (snapshot : Snapshot) (ranges : List KeyRange) :
    (order.arrange ranges).flatMap (fun range => snapshot.scan range order) =
      order.arrange (ranges.flatMap (fun range =>
        snapshot.scan range .ascending)) := by
  simp only [scan_eq_arrange snapshot _ order]
  cases order with
  | ascending => rfl
  | descending =>
      simp only [arrange]
      rw [reverse_flatMap]
      rfl

variable {order : ScanOrder}

section

variable
  [Platform]
  {catalog : Catalog}
  {wellFormed : catalog.WellFormed}
  {snapshot : Snapshot}
  {context : MatchContext}
  {records visited : List (CatalogRow catalog)}

variable {natural : List (Ordinal × Direction)} {asRead : CatalogRow catalog → Row}

/-- A path over an index comes to rows in the order of its columns. -/
theorem pairwise_entries_follow
    {index : IndexDef}
    (follow : ∀ record other : CatalogRow catalog,
      record.StoredIn snapshot context.table →
      other.StoredIn snapshot context.table →
      context.Admits record.row → context.Admits other.row →
        context.FollowsColumns index ranges natural record.row other.row
            (asRead record) (asRead other) ∧
          context.RangesFollow index ranges record.row other.row)
    (beside : List.Forall₂ (EntryOf snapshot context.table index)
      ((order.arrange ranges).flatMap
        (fun range => snapshot.scan range order)) visited) :
    visited.Pairwise (fun record other =>
      context.Admits record.row → context.Admits other.row →
        order.orient (columnOrder (asRead record).get
          (asRead other).get natural) ≠ .gt) := by
  let chosen (found : KeyValue) : Prop := ∃ record : CatalogRow catalog,
      EntryOf snapshot context.table index found record ∧ context.Admits record.row
  have ascending : (ranges.flatMap (fun range =>
      snapshot.scan range .ascending)).Pairwise (fun found other =>
        chosen found → chosen other → compare found.key other.key = .lt) := by
    refine pairwise_flatMap.mpr ⟨fun range _ =>
      (pairwise_scan snapshot range).imp (fun less _ _ => less), ?_⟩
    rw [pairwise_iff_forall_sublist]
    rintro range other both found inRange found' inOther
      ⟨record, isEntry, admits⟩ ⟨record', isEntry', admits'⟩
    obtain ⟨entry, inEntries, rfl⟩ := isEntry.entry
    obtain ⟨entry', inEntries', rfl⟩ := isEntry'.entry
    exact pairwise_iff_forall_sublist.mp (follow record record' isEntry.storedIn
      isEntry'.storedIn admits admits').2 both entry inEntries entry' inEntries'
      (mem_scan.mp inRange).1 (mem_scan.mp inOther).1
  have within : ∀ found ∈ (order.arrange ranges).flatMap
      (fun range => snapshot.scan range order),
        ∃ range ∈ ranges, range.contains found.key = true := by
    intro found member
    obtain ⟨range, inRanges, inScan⟩ := mem_flatMap.mp member
    exact ⟨range, (order.perm_arrange ranges).mem_iff.mp inRanges,
      (mem_scan.mp inScan).1⟩
  have arranged := order.pairwise_arrange ascending
  rw [← order.flatMap_scan] at arranged
  refine pairwise_of_forall₂ ?_ beside (arranged.imp_of_mem (fun {found other} member
    member' less => (⟨within found member, within other member', less⟩ :
    (∃ range ∈ ranges, range.contains found.key = true) ∧
    (∃ range ∈ ranges, range.contains other.key = true) ∧ (chosen found → chosen other →
    order.orient (compare found.key other.key) = .lt))))
  rintro found found' record record' ⟨inside, inside', less⟩ isEntry isEntry'
    admits admits'
  have isLess := less ⟨record, isEntry, admits⟩ ⟨record', isEntry', admits'⟩
  obtain ⟨entry, inEntries, rfl⟩ := isEntry.entry
  obtain ⟨entry', inEntries', rfl⟩ := isEntry'.entry
  have differs : entry.key ≠ entry'.key := by
    intro sameKey
    dsimp only at isLess
    rw [sameKey, Std.ReflOrd.compare_self, ScanOrder.orient_eq] at isLess
    cases isLess
  have isColumns := (follow record record' isEntry.storedIn isEntry'.storedIn
    admits admits').1 entry inEntries entry' inEntries' inside inside' differs
  dsimp only at isLess
  rw [isColumns] at isLess
  rw [isLess]
  nofun

/-- A path comes to rows in the order that it is said to be in. -/
theorem pairwise_walks
    (wellFormed : context.table.WellFormed)
    (enumerates : Enumerates snapshot context.table records)
    (storedIn : ∀ record ∈ visited, record.StoredIn snapshot context.table)
    {access : Access}
    (reads : ∀ record : CatalogRow catalog,
      record.StoredIn snapshot context.table → context.Admits record.row →
        context.ReadAs access record.row (asRead record))
    (follows : ∀ record other : CatalogRow catalog,
      record.StoredIn snapshot context.table →
      other.StoredIn snapshot context.table →
      context.Admits record.row → context.Admits other.row →
        context.Follows natural record.row other.row (asRead record)
          (asRead other) access)
    (walks : access.Walks snapshot context.table order records visited) :
    visited.Pairwise (fun record other =>
      context.Admits record.row → context.Admits other.row →
        order.orient (columnOrder (asRead record).get
          (asRead other).get natural) ≠ .gt) := by
  have ofIndex {id : IndexId} {ranges : List KeyRange} {covering : Bool}
      (isRanges : access.entryRanges = some (id, ranges, covering))
      (beside : ∃ index ∈ context.table.indexes, index.id = id ∧
        List.Forall₂ (EntryOf snapshot context.table index)
          ((order.arrange ranges).flatMap
            (fun range => snapshot.scan range order)) visited) :
      visited.Pairwise (fun record other =>
        context.Admits record.row → context.Admits other.row →
          order.orient (columnOrder (asRead record).get
            (asRead other).get natural) ≠ .gt) := by
    obtain ⟨index, inIndexes, sameId, beside⟩ := beside
    exact pairwise_entries_follow (fun record other stored stored' admits
      admits' => (follows record other stored stored' admits admits').1 id
      ranges covering isRanges index inIndexes sameId) beside
  cases access with
  | nothing =>
      rw [show visited = [] from walks]
      exact .nil
  | pointGet key =>
      have short : visited.length ≤ 1 := walks
      rcases visited with _ | ⟨record, _ | ⟨_, _⟩⟩
      · exact .nil
      · exact pairwise_singleton ..
      · simp at short
  | pointGets keys =>
      refine pairwise_of_forall_mem_list (fun record member other member'
        admits admits' => ?_)
      rw [(follows record other (storedIn record member) (storedIn other member') admits
        admits').2.2 keys rfl, columnOrder_nil, ScanOrder.orient_eq]
      rintro ⟨⟩
  | tableScan range =>
      have scanned := pairwise_scan snapshot
        (KeyRange.ofPrefix (tablePrefix context.table))
      rw [enumerates.scanned, pairwise_map] at scanned
      have arranged := order.pairwise_arrange (scanned.imp
        (fun {record other : CatalogRow catalog} less (_ : True) (_ : True) => less))
      refine (arranged.sublist walks).imp_of_mem ?_
      intro record other member member' less admits admits'
      have isTable : ∀ record ∈ visited, record.table = context.table :=
        fun record member => enumerates.ofTable record
          ((order.perm_arrange records).mem_iff.mp (walks.subset member))
      have isOrder : compare record.key other.key =
          columnOrder (asRead record).get (asRead other).get
            (primaryKeyColumns context.table) := by
        have decided := primaryKey_decided wellFormed admits.keyable
          (reads record (storedIn record member) admits).stored
          (reads other (storedIn other member') admits').stored
        rw [CatalogRow.key, CatalogRow.key, isTable record member, isTable other
          member', rowKey, rowKey, OrderedCode.DecidedBy.refl _ _ _,
          Ordering.eq_then, decided.compare_eq]
      rw [show compare record.entry.key other.entry.key = _ from isOrder] at less
      rw [(follows record other (storedIn record member) (storedIn other
        member') admits admits').2.1 range rfl, less trivial trivial]
      rintro ⟨⟩
  | indexScan id range covering =>
      have isRange : order.arrange [range] = [range] := by
        cases order <;> rfl
      refine ofIndex rfl ?_
      rw [isRange, flatMap_singleton]
      exact walks
  | indexScans id ranges covering => exact ofIndex rfl walks

end

/-! ## Plans that do not sort -/

theorem compareRows_canonical
    (first second : Row) (sort : List SortKey) :
    compareRows ⟨first.canonical⟩ ⟨second.canonical⟩ sort =
      compareRows first second sort := by
  have same (row : Row) (ordinal : Ordinal) :
      ((⟨row.canonical⟩ : Row).get ordinal).map Value.canonical =
        (row.get ordinal).map Value.canonical := by
    rw [Row.get, Row.get, Row.canonical, getElem?_map, Option.map_map]
    exact congrArg (Option.map · _) (funext Value.canonical_canonical)
  exact compareRows_congr (fun key _ => same first key.column)
    (fun key _ => same second key.column)

section

variable [Platform]

variable {context : MatchContext} {row row' : Row}

omit [Platform] in
theorem Constraints.cmp_of_pinned
    {first second : Columns} (met : constraints.Met first)
    (met' : constraints.Met second) {ordinal : Ordinal}
    (isPinned : constraints.pinned.contains ordinal = true) :
    (first.valueOrNull ordinal).cmp (second.valueOrNull ordinal) = .eq := by
  obtain ⟨entry, member, rfl⟩ := mem_map.mp (contains_iff_mem.mp isPinned)
  obtain ⟨inConstraints, isSome⟩ := mem_filter.mp member
  obtain ⟨value, isValue⟩ := isSome_iff_exists.mp isSome
  rw [Value.cmp_eq_iff_canonical, (met entry inConstraints).equals value
    isValue, (met' entry inConstraints).equals value isValue]

omit [Platform] in
theorem compareRows_of_satisfies
    {first second : Row}
    (sameWidth : first.values.length = second.values.length)
    (met : constraints.Met first.get) (met' : constraints.Met second.get)
    {candidate : Candidate} {sort : List SortKey}
    (satisfied : candidate.satisfies sort order constraints.pinned = true)
    (inOrder : order.orient (columnOrder first.get second.get
      candidate.naturalOrder) ≠ .gt) :
    compareRows first second sort ≠ .gt := by
  have equal : ∀ ordinal, constraints.pinned.contains ordinal = true → _ :=
    fun _ => Constraints.cmp_of_pinned met met'
  rw [columnOrder_filter equal] at inOrder
  rw [compareRows_filter sameWidth equal]
  exact compareRows_of_satisfiesSort sameWidth satisfied inOrder

omit [Platform] in
theorem Query.mem_kept_of_sorted
    {query : Query} {key : SortKey}
    (member : key ∈ query.sort)
    (table : TableDef) (filter : Expr)
    (inside : key.column < table.columns.length) :
    key.column ∈ query.kept table filter := by
  have isOutput : key.column ∈
      planOutputColumns table filter query.projection query.sort := by
    rw [planOutputColumns.eq_def]
    dsimp only
    split
    · exact Finset.mem_range.mpr inside
    · refine mem_toFinset.mpr (mem_filter.mpr
        ⟨mem_append_right _ (mem_map_of_mem member), ?_⟩)
      exact decide_eq_true inside
  refine Finset.mem_sdiff.mpr ⟨Finset.mem_union_left _ isOutput, ?_⟩
  intro isTransient
  rw [List.mem_toFinset, transientColumns, mem_dedup, mem_filter] at isTransient
  exact (of_decide_eq_true isTransient.2).2 isOutput

theorem Query.compareRows_select
    {query : Query} {table : TableDef} {filter : Expr}
    {row row' selected selected' : Row}
    (isSelected : query.select table filter row = some selected)
    (isSelected' : query.select table filter row' = some selected') :
    compareRows selected selected' query.sort =
      compareRows (extendRow row query.compute [] none)
        (extendRow row' query.compute [] none) query.sort := by
  have kept {row selected : Row}
      (isSelected : query.select table filter row = some selected) :
      ∀ key ∈ query.sort, (selected.get key.column).map Value.canonical =
          ((extendRow row query.compute [] none).get key.column).map
            Value.canonical := by
    intro key member
    rw [Query.select] at isSelected
    split at isSelected
    · cases isSelected
      rw [Row.get, Row.get, getElem?_keep_of_kept _
        (Query.mem_kept_of_sorted member table filter)]
    · cases isSelected
  exact compareRows_congr (kept isSelected) (kept isSelected')

/-- The row that an index shows instead of one with its computed columns. -/
theorem IndexDef.exists_shown
    {index : IndexDef} {compute : List Scalar} {position : Nat}
    (isPosition : expressionPosition index compute = some position)
    {table : TableDef}
    (width : row.values.length = table.columns.length) :
    ∃ read : Row, read.get = index.shown table compute row ∧
      read.values.length = row.values.length + compute.length := by
  obtain ⟨expression, _, isScalar, found, -⟩ := exists_of_expressionPosition isPosition
  have inside := (List.getElem?_eq_some_iff.mp found).1
  refine ⟨⟨(extendRow row compute [] none).values.set
    (table.columns.length + position) (expression.evaluate row.get)⟩, ?_, ?_⟩
  · funext ordinal
    rw [shown, isPosition, Row.get, getElem?_set, length_extendRow]
    dsimp only
    by_cases isHere : ordinal = table.columns.length + position
    · rw [if_pos isHere.symm, if_pos isHere, if_pos (by omega),
        keyValues_of_indexExpression isScalar]
      rfl
    · rw [if_neg (Ne.symm isHere), if_neg isHere]
      rfl
  · rw [length_set, length_extendRow]

/--
What an index that is read holds of a computed column comes in the order of its
encodings, and is what the query computes where the query sorts by it.
-/
def Access.OrdersBy (access : Access) (context : MatchContext)
    (sort : List SortKey) (row : Row) : Prop :=
  ∀ id ranges covering, access.entryRanges = some (id, ranges, covering) →
    EntryWithin context.table row id ranges →
      ∀ index ∈ context.table.indexes, index.id = id →
        ∀ position, expressionPosition index context.compute = some position →
          index.Serves context.compute row covering ∧
          (context.Admits row → (∀ value ∈ index.keyValues row, value.Ordered) ∧
            context.constraints.Met (index.shown context.table context.compute row) ∧
            ∀ key ∈ sort, key.column = context.table.columns.length + position →
                (index.shown context.table context.compute row
                    key.column).map Value.canonical =
                  ((extendRow row context.compute [] none).get
                    key.column).map Value.canonical)

section

variable
  {access : Access}
  {sort : List SortKey}
  (tableFormed : context.table.WellFormed)
  (orders : access.OrdersBy context sort row)

include tableFormed orders

theorem Access.OrdersBy.serves
    (readsFrom : context.ReadsFrom access)
    (valid : row.validate context.table = .ok ()) :
    access.Serves context row := by
  intro id ranges covering isAccess within index inIndexes sameId
  cases isPosition : expressionPosition index context.compute with
  | some position =>
      obtain ⟨serves, sorts⟩ := orders id ranges covering isAccess within index
        inIndexes sameId position isPosition
      refine ⟨serves, fun admits => ?_⟩
      obtain ⟨ordered, met, -⟩ := sorts admits
      exact ⟨_, admits.held_of_shown tableFormed inIndexes (fun _ => ordered) met⟩
  | none =>
      refine ⟨IndexDef.serves_of_plain tableFormed valid inIndexes
        (plain_of_readsFrom tableFormed isAccess inIndexes sameId readsFrom
          (by simp [isPosition])) _ _, fun admits => ?_⟩
      exact ⟨_, admits.held_of_stands tableFormed inIndexes
        (fun position isHere => by simp [isPosition] at isHere)⟩

/-- A row is read with what an index holds of it, if it is read of an index. -/
theorem Access.OrdersBy.exists_readAs
    (admits : context.Admits row) :
    ∃ read : Row, context.ReadAs access row read ∧
      ∀ key ∈ sort, (read.get key.column).map Value.canonical =
        ((extendRow row context.compute [] none).get key.column).map
          Value.canonical := by
  by_cases isRead : ∃ index ∈ context.table.indexes, ∃ position, expressionPosition
    index context.compute = some position ∧ ∃ ranges covering, access.entryRanges = some
    (index.id, ranges, covering) ∧ EntryWithin context.table row index.id ranges
  · obtain ⟨index, inIndexes, position, isPosition, ranges, covering, isAccess,
      within⟩ := isRead
    obtain ⟨-, sorts⟩ := orders _ ranges covering isAccess within index
      inIndexes rfl position isPosition
    obtain ⟨ordered, met, sorted⟩ := sorts admits
    obtain ⟨read, isShown, width⟩ :=
      IndexDef.exists_shown isPosition admits.keyable.width
    have elsewhere : ∀ ordinal,
        ordinal ≠ context.table.columns.length + position → read.get ordinal =
            (extendRow row context.compute [] none).get ordinal := by
      intro ordinal notHere
      rw [isShown, IndexDef.shown, isPosition]
      exact if_neg notHere
    refine ⟨read, ⟨width, fun ordinal inside => ?_, isShown ▸ met, ?_⟩, ?_⟩
    · rw [elsewhere ordinal (by omega)]
      exact get_extendRow _ (admits.keyable.width ▸ inside)
    · intro id ranges' covering' isAccess' _ other inOther sameId
      rw [isAccess] at isAccess'
      cases isAccess'
      obtain rfl : other = index :=
        inj_on_of_nodup_map tableFormed.indexIds inOther inIndexes sameId
      exact isShown ▸ admits.held_of_shown tableFormed inIndexes (fun _ => ordered) met
    · intro key member
      by_cases isHere : key.column = context.table.columns.length + position
      · rw [isShown]
        exact sorted key member isHere
      · rw [elsewhere _ isHere]
  · refine ⟨_, admits.readAs (fun id ranges covering isAccess within index inIndexes
      sameId => admits.held_of_stands tableFormed inIndexes ?_), fun _ _ => rfl⟩
    subst sameId
    intro position isPosition
    exact absurd ⟨index, inIndexes, position, isPosition, ranges, covering,
      isAccess, within⟩ isRead

end

variable
  {catalog : Catalog}
  {wellFormed : catalog.WellFormed}
  {snapshot : Snapshot}
  {table : TableDef}
  {tableRows : List Row}

/--
A plan that does not sort collects the rows in the order that its query asks
for, if the index it reads orders them by what the query sorts by.
-/
theorem sorted_of_unsorted
    (readable : ReadableTable wellFormed snapshot table tableRows)
    {filter : Expr} {query : Query} {stats : TableStats} {plan : Plan}
    {hidden : List Ordinal}
    (isPlan : plan = query.planned table filter stats hidden)
    (unsorted : plan.sort = none)
    (orders : ∀ record : CatalogRow catalog, record.StoredIn snapshot table →
      plan.access.OrdersBy (matchContext table filter query.projection stats
        query.sort query.compute) query.sort record.row) :
    ∃ rows, (source snapshot (rowShape table plan query.compute) plan.order
        plan.access).collect = .ok rows ∧
      rows.Pairwise (fun row other =>
        compareRows row other query.sort ≠ .gt) := by
  have tableFormed := wellFormed.tables table readable.inCatalog
  obtain ⟨records, enumerates, -⟩ := readable.exists_enumerates
  generalize isContext : matchContext table filter query.projection stats
    query.sort query.compute = context at orders
  have isTable : context.table = table := isContext ▸ rfl
  have isCompute : context.compute = query.compute := isContext ▸ rfl
  have readsFrom : context.ReadsFrom plan.access := by
    rw [isPlan, ← isContext]
    exact readsFrom_planHinted ..
  obtain ⟨rows, visited, collected, areVisited, storedIn, -, walks, -⟩ :=
    collect_visited enumerates stats (fun record stored => isContext ▸
      (orders record stored).serves (isTable ▸ tableFormed) readsFrom
        (isTable ▸ stored.ofTable ▸ record.valid))
      (readable.reads_access plan.access) isPlan
  refine ⟨rows, collected, ?_⟩
  have admits : ∀ record ∈ visited, (query.selectOf table filter record).isSome →
        context.Admits record.row := by
    intro record member isSelected
    rw [Query.selectOf, isSome_map] at isSelected
    have valid := record.valid
    rw [(storedIn record member).ofTable] at valid
    exact isContext ▸ admits_matchContext (Row.keyable_of_validate tableFormed
      valid) (Query.admits_of_select isSelected) _ _ _
  -- The rows are in order where the rows that are come to are.
  have ofVisited : visited.Pairwise (fun record other =>
      context.Admits record.row → context.Admits other.row →
        compareRows (extendRow record.row query.compute [] none)
          (extendRow other.row query.compute [] none) query.sort ≠ .gt) →
      rows.Pairwise (fun row other =>
        compareRows row other query.sort ≠ .gt) := by
    intro inOrder
    have selected : (visited.filterMap
        (query.selectOf table filter)).Pairwise (fun values other =>
          compareRows ⟨values⟩ ⟨other⟩ query.sort ≠ .gt) := by
      refine pairwise_filterMap.mpr (inOrder.imp_of_mem ?_)
      intro record other member member' isOrdered values isValues values' isValues'
      have ordered := isOrdered (admits record member (isValues ▸ rfl))
        (admits other member' (isValues' ▸ rfl))
      obtain ⟨selected, isSelected, rfl⟩ := map_eq_some_iff.mp isValues
      obtain ⟨selected', isSelected', rfl⟩ := map_eq_some_iff.mp isValues'
      rw [compareRows_canonical, Query.compareRows_select isSelected isSelected']
      exact ordered
    rw [← areVisited, pairwise_map] at selected
    refine selected.imp (fun {row other} ordered => ?_)
    rw [← compareRows_canonical]
    exact ordered
  apply ofVisited
  have isUnsorted : (planHinted table filter query.order query.projection
      stats query.sort query.hint query.compute).sort = none := by
    rw [isPlan] at unsorted
    exact unsorted
  have isAccess : plan.access = (planHinted table filter query.order
      query.projection stats query.sort query.hint query.compute).access := by
    rw [isPlan]
    rfl
  rcases satisfies_planHinted isUnsorted with
    isNothing | ⟨candidate, considered, isPruned, satisfied⟩
  · rw [isAccess, isNothing] at walks
    rw [show visited = [] from walks]
    exact .nil
  · rw [← isAccess] at isPruned
    by_cases isEmpty : query.sort = []
    · rw [isEmpty]
      exact pairwise_of_forall (fun _ _ _ _ => by rintro ⟨⟩)
    · have satisfied := satisfied.resolve_left isEmpty
      have ordered : context.ordered = true := by
        have isOrdered : context.ordered = !query.sort.isEmpty := isContext ▸ rfl
        rw [isOrdered, isEmpty_eq_false_iff.mpr isEmpty]
        rfl
      rw [isContext] at considered
      rcases prunedAccess_cases candidate.access with
        isSame | isNothing
      · rw [isPruned, isSame] at orders walks
        subst isTable
        choose! asRead isRead sameSorted using fun (record : CatalogRow catalog)
              (stored : record.StoredIn snapshot context.table)
              (admits : context.Admits record.row) =>
            (orders record stored).exists_readAs tableFormed admits
        have inOrder := pairwise_walks tableFormed enumerates storedIn isRead
          (fun record other stored stored' admits admits' =>
            follows_candidates tableFormed admits admits' ordered
              candidate considered (isRead record stored admits)
              (isRead other stored' admits')) walks
        refine inOrder.imp_of_mem ?_
        intro record other member member' inOrder admits admits'
        have stored := storedIn record member
        have stored' := storedIn other member'
        have read := isRead record stored admits
        have read' := isRead other stored' admits'
        rw [← isCompute, ← compareRows_congr
          (sameSorted record stored admits) (sameSorted other stored' admits')]
        refine compareRows_of_satisfies ?_ read.met read'.met
          (isContext ▸ satisfied) (inOrder admits admits')
        rw [read.width, read'.width, admits.keyable.width, admits'.keyable.width]
      · rw [isPruned, isNothing] at walks
        rw [show visited = [] from walks]
        exact .nil

end

/-! ## Scores in order -/

section

local instance scorePlatform : Platform := asciiPlatform

/-- A table of scores with an index over a computed rank. -/
def scoresBuilder (rank : Scalar) : TableBuilder where
  id := 1
  name := "scores"
  columns := [
    { name := "id", type := .i64 },
    { name := "points", type := .i64 }]
  primaryKey := ["id"]
  indexes := [
    { id := 1
      name := "scores_rank"
      expression := some ⟨.scalar rank, .i64, .asc⟩ }]

/-- The index over the rank. -/
def scoresRank (rank : Scalar) : IndexDef :=
  ⟨1, "scores_rank", [], false, none, some ⟨.scalar rank, .i64, .asc⟩, false⟩

/-- The table of scores. -/
def scores (rank : Scalar) : TableDef where
  id := 1
  name := "scores"
  columns := (scoresBuilder rank).columns.map ColumnSpec.toColumn
  primaryKey := [0]
  bodyColumns := [1]
  storedColumns := [1]
  indexes := [scoresRank rank]
  checks := []
  foreignKeys := []
  tenantColumn := none
  softDelete := none
  schemaVersion := 0

theorem built_scores
    (rank : Scalar) :
    ∀ table ∈ [scores rank], ∃ builder : TableBuilder, builder.build = .ok table := by
  intro table member
  rw [mem_singleton.mp member]
  exact ⟨scoresBuilder rank, rfl⟩

/-- Two scores are written. -/
def scoreCalls (rank : Scalar) : List Call :=
  [.write (.plain ⟨[scores rank]⟩) .superuser (scores rank)
    (.keyed (.insert ⟨[.i64 1, .i64 5]⟩)),
  .write (.plain ⟨[scores rank]⟩) .superuser (scores rank)
    (.keyed (.insert ⟨[.i64 2, .i64 3]⟩))]

/-- The store after the calls. -/
def scoreStore (rank : Scalar) : Option RecordState :=
  (scoreCalls rank).foldlM Call.step (.begin ∅)

theorem consistent_scores
    {rank : Scalar} {state : RecordState}
    (isStore : scoreStore rank = some state) :
    (Catalog.layout ⟨[scores rank]⟩ (Catalog.wellFormed_of_fromTables
      (built_scores rank) rfl)).Consistent
        (Catalog.view ⟨[scores rank]⟩ state.transaction.get) := by
  have unmanaged : Catalog.Unmanaged ⟨[scores rank]⟩ := by
    intro table member
    rw [mem_singleton.mp member]
    exact ⟨rfl, rfl⟩
  have names : ∀ call ∈ scoreCalls rank, call.Names ⟨[scores rank]⟩ := by
    simp [scoreCalls, Call.Names, RecordWrite.Named, RecordTransaction.plain]
  have fits : ∀ call ∈ scoreCalls rank, ∀ row ∈ call.rows, row.Fits := by
    simp [scoreCalls, Call.rows, RecordWrite.rows, KeyedWrite.rows, Row.Fits,
      Value.fits]
  exact (Catalog.keepsOnly_of_calls _ unmanaged names fits (.of_foldlM isStore)).keeps

/-- The scores by rank, read by the index. -/
def scoresByRank (compute : List Scalar) (column : Ordinal) : Query where
  compute := compute
  sort := [⟨column, .asc, .first⟩]
  hint := some (.index 1)

/-- How the scores by rank are read. -/
def scorePlan (rank : Scalar) (query : Query) : Plan :=
  query.planned (scores rank) .true indifferentStats []

/-- How the first two scores that a plan reads compare. -/
def scoreOrdering (rank : Scalar) (query : Query) : Option Ordering := do
  let state ← scoreStore rank
  let _ ← (readTable state.transaction (scores rank)).toOption
  let rows ← (source state.transaction
    (rowShape (scores rank) (scorePlan rank query) query.compute)
    (scorePlan rank query).order (scorePlan rank query).access).collect.toOption
  let first ← rows[0]?
  let second ← rows[1]?
  return compareRows first second query.sort

/-- The rank of a score by its points, the most first. -/
def pointsRank : Scalar := .sub (.literal (.i64 0)) (.column 1)

theorem regularFor_pointsRank
    (compute : List Scalar) :
    (scoresRank pointsRank).RegularFor (scores pointsRank) compute := by
  refine ⟨fun _ expression isRank column isRead => ?_, fun _ => ?_⟩
  · cases isRank
    rw [show column = 1 by simpa [pointsRank, Scalar.columns] using isRead]
    decide
  · intro declared isDeclared
    cases isDeclared
    decide

/-- Scores come in the order of a rank over their points. -/
theorem sorted_scores :
    let _ : Platform := asciiPlatform
    let query := scoresByRank [pointsRank] 2
    let plan := scorePlan pointsRank query
    ∃ state, scoreStore pointsRank = some state ∧ ∃ rows, (source state.transaction
        (rowShape (scores pointsRank) plan query.compute) plan.order
        plan.access).collect = .ok rows ∧
      rows.Pairwise (fun row other =>
        compareRows row other query.sort ≠ .gt) := by
  intro _ query plan
  have isOrdered : scoreOrdering pointsRank (scoresByRank [pointsRank] 2) =
      some .lt := by
    decide
  rw [scoreOrdering] at isOrdered
  obtain ⟨state, isStore, ordering⟩ := bind_eq_some_iff.mp isOrdered
  obtain ⟨tableRows, isRead, -⟩ := bind_eq_some_iff.mp ordering
  have readable : ReadableTable (Catalog.wellFormed_of_fromTables
      (built_scores pointsRank) rfl) state.transaction (scores pointsRank)
        tableRows :=
    ⟨mem_singleton.mpr rfl, consistent_scores isStore, eq_ok_of_toOption isRead⟩
  have isPlan : plan =
      query.planned (scores pointsRank) .true indifferentStats [] := rfl
  have unsorted : plan.sort = none := by
    decide
  have orders : ∀ record : CatalogRow ⟨[scores pointsRank]⟩,
      record.StoredIn state.transaction (scores pointsRank) →
      plan.access.OrdersBy (matchContext (scores pointsRank) .true
        query.projection indifferentStats query.sort query.compute) query.sort
          record.row := by
    intro record stored _ _ _ _ _ index member _ position _
    obtain rfl := mem_singleton.mp member
    have valid := record.valid
    rw [stored.ofTable] at valid
    have tableFormed := (Catalog.wellFormed_of_fromTables
      (built_scores pointsRank) rfl).tables _ readable.inCatalog
    have regular := regularFor_pointsRank [pointsRank]
    have keyable := (Row.keyable_of_validate tableFormed valid).indexed _ member
      (regular.ordered rfl)
    have width := Row.width_of_validate valid
    have holds := regular.holdsComputed width (fun value isHeld =>
      ⟨Value.flat_of_isKeyable (keyable value isHeld),
        Value.fits_of_isKeyable (keyable value isHeld)⟩)
    exact ⟨⟨fun value isHeld => Value.flat_of_isKeyable (keyable value isHeld),
      fun _ => holds⟩, fun _ => ⟨fun value isHeld =>
      Value.ordered_of_isKeyable (keyable value isHeld), by rintro _ ⟨⟩,
      fun key _ _ => holds.canonical_shown width key.column⟩⟩
  clear_value plan
  exact ⟨state, isStore, sorted_of_unsorted readable isPlan unsorted orders⟩

/-- Scores are out of order when a rank reads what the query computes. -/
theorem not_sorted_scores :
    ¬∀ (_ : Platform) (tables : List TableDef) (built : ∀ table ∈ tables,
        ∃ builder : TableBuilder, builder.build = .ok table)
      (catalog : Catalog) (made : Catalog.fromTables tables = .ok catalog)
      (snapshot : Snapshot) (table : TableDef) (tableRows : List Row),
      ReadableTable (Catalog.wellFormed_of_fromTables built made) snapshot
        table tableRows →
      ∀ (filter : Expr) (query : Query) (stats : TableStats) (plan : Plan)
        (hidden : List Ordinal),
        plan = query.planned table filter stats hidden →
        plan.sort = none →
        ∀ rows, (source snapshot (rowShape table plan query.compute)
            plan.order plan.access).collect = .ok rows →
          rows.Pairwise (fun row other =>
            compareRows row other query.sort ≠ .gt) := by
  intro always
  have isOrdered : scoreOrdering (.column 2)
      (scoresByRank [.column 1, .column 2] 3) = some .gt := by
    decide
  rw [scoreOrdering] at isOrdered
  obtain ⟨state, isStore, ordering⟩ := bind_eq_some_iff.mp isOrdered
  obtain ⟨tableRows, isRead, ordering⟩ := bind_eq_some_iff.mp ordering
  obtain ⟨rows, collected, ordering⟩ := bind_eq_some_iff.mp ordering
  obtain ⟨first, isFirst, ordering⟩ := bind_eq_some_iff.mp ordering
  obtain ⟨second, isSecond, ordering⟩ := bind_eq_some_iff.mp ordering
  have sorted := always scorePlatform [scores (.column 2)] (built_scores _)
    ⟨[scores (.column 2)]⟩ rfl state.transaction (scores (.column 2)) tableRows
    ⟨mem_singleton.mpr rfl, consistent_scores isStore, eq_ok_of_toOption isRead⟩
    .true (scoresByRank [.column 1, .column 2] 3) indifferentStats _ [] rfl
    (by decide) rows (eq_ok_of_toOption collected)
  obtain ⟨inside, isFirst⟩ := List.getElem?_eq_some_iff.mp isFirst
  obtain ⟨inside', isSecond⟩ := List.getElem?_eq_some_iff.mp isSecond
  have ordered := pairwise_iff_getElem.mp sorted 0 1 inside inside' Nat.zero_lt_one
  rw [isFirst, isSecond] at ordered
  exact ordered (some.inj ordering)

end

end SlateOrm
