import SlateOrm.PagedReads

namespace SlateOrm

open List Keys MatchContext

/-!
# Keys of returned rows

Every row that is returned was read under a primary key, and holds it unless
one of its columns is blanked: because the caller does not see it, or because
it was read for computed columns alone.  A page is gone on with after the key
that its last row holds.
-/

/-! ## Keys of rows -/

/--
A row holds the values of a primary key, and nulls in place of those that are
blanked.
-/
structure Row.KeyedBy (row : Row) (table : TableDef)
    (blanked : List Ordinal) (primaryKey : List Value) : Prop where
  wide : table.columns.length ≤ row.values.length
  values : ∀ entry ∈ table.primaryKey.zip primaryKey,
    row.valueOrNull entry.1 = if entry.1 ∈ blanked then .null else entry.2

namespace Row.KeyedBy

variable
  {row : Row}
  {table : TableDef}
  {blanked : List Ordinal}
  {primaryKey : List Value}

theorem fillKey
    (wellFormed : table.WellFormed)
    (whole : primaryKey.length = table.primaryKey.length)
    {values : List Value}
    (width : values.length = table.columns.length) :
    KeyedBy ⟨fillKey table primaryKey values⟩ table [] primaryKey := by
  refine ⟨?_, fun entry member => ?_⟩
  · rw [length_fillKey, width]
  · obtain ⟨position, inside, rfl⟩ := mem_iff_getElem.mp member
    rw [length_zip] at inside
    have inKey : position < table.primaryKey.length := by omega
    have inValues : position < primaryKey.length := by omega
    have filled := valueOrNull_fillKey_of_mem wellFormed whole width inKey
    rw [getElem?_eq_getElem inValues] at filled
    rw [getElem_zip]
    simpa using filled

theorem append
    (wellFormed : table.WellFormed)
    (keyed : row.KeyedBy table blanked primaryKey) (extra : List Value) :
    KeyedBy ⟨row.values ++ extra⟩ table blanked primaryKey := by
  refine ⟨?_, fun entry member => ?_⟩
  · rw [length_append]
    exact Nat.le_add_right_of_le keyed.wide
  · obtain ⟨column, found, -⟩ := wellFormed.key entry.1 (of_mem_zip member).1
    have inside : entry.1 < row.values.length :=
      Nat.lt_of_lt_of_le (List.getElem?_eq_some_iff.mp found).1 keyed.wide
    rw [← keyed.values entry member, valueOrNull, Row.get,
      getElem?_append_left inside, valueOrNull, Row.get]

theorem blank
    (keyed : row.KeyedBy table blanked primaryKey) (others : List Ordinal) :
    KeyedBy (conceal row others) table (others ++ blanked) primaryKey := by
  refine ⟨?_, fun entry member => ?_⟩
  · rw [length_conceal]
    exact keyed.wide
  · have same := keyed.values entry member
    rw [valueOrNull, Row.get] at same ⊢
    rw [conceal, getElem?_foldl_null]
    by_cases isOther : entry.1 ∈ others
    · rw [if_pos isOther, if_pos (mem_append_left _ isOther)]
      cases row.values[entry.1]? <;> rfl
    · rw [if_neg isOther, same]
      simp [isOther]

theorem primaryKeyValues_eq_iff
    (keyed : row.KeyedBy table blanked primaryKey)
    (whole : primaryKey.length = table.primaryKey.length) :
    row.primaryKeyValues table = primaryKey ↔ ∀ entry ∈ table.primaryKey.zip primaryKey,
        entry.1 ∈ blanked → entry.2 = .null := by
  have held : row.primaryKeyValues table =
      (table.primaryKey.zip primaryKey).map (fun entry =>
        if entry.1 ∈ blanked then .null else entry.2) := by
    have isKey := map_fst_zip (Nat.le_of_eq whole.symm)
    rw [primaryKeyValues, project, ← map_congr_left keyed.values]
    nth_rewrite 1 [← isKey]
    rw [map_map]
    rfl
  have isKey : primaryKey = (table.primaryKey.zip primaryKey).map Prod.snd :=
    (map_snd_zip (Nat.le_of_eq whole)).symm
  rw [held]
  nth_rewrite 2 [isKey]
  rw [map_inj_left]
  refine forall₂_congr (fun entry _ => ?_)
  split
  · next isBlanked => simp [isBlanked, eq_comm]
  · next isKept => simp [isKept]

theorem extendRow
    [Platform]
    (wellFormed : table.WellFormed)
    (keyed : row.KeyedBy table [] primaryKey) {compute : List Scalar}
    {transient : List Ordinal}
    (needed : compute = [] → transient = [])
    (held : Option (Nat × Value)) :
    KeyedBy (extendRow row compute transient held) table transient
      primaryKey := by
  rw [SlateOrm.extendRow]
  split
  · next none_ =>
      rw [needed (isEmpty_iff.mp none_)]
      exact keyed
  · obtain ⟨extra, isExtra⟩ := exists_appendComputed held 0 compute row.values
    rw [isExtra]
    have blanked := (keyed.append wellFormed extra).blank transient
    rwa [append_nil] at blanked

end Row.KeyedBy

/-! ## Keys that rows come from -/

/-- A path to single rows names whole primary keys. -/
def Access.NamesWholeKeys (table : TableDef) : Access → Prop
  | .pointGet key => key.length = table.primaryKey.length
  | .pointGets keys => ∀ key ∈ keys, key.length = table.primaryKey.length
  | _ => True

section

variable [Platform]

/-- The primary key that a row of a path is read under. -/
inductive KeyOrigin (snapshot : Snapshot) (shape : RowShape)
    (access : Access) : List Value → Row → Prop
  | stored {key body : Bytes} {primaryKey : List Value}
      {asked : Option ColumnSet} {row : Row} :
      ReadsKey shape.table access key primaryKey →
      snapshot.get key = some body →
      decodeRowColumns shape.table primaryKey body asked = .ok row →
      KeyOrigin snapshot shape access primaryKey
        (extendRow row shape.compute shape.transient none)
  | fetched {index : IndexDef} {indexed primaryKey : List Value}
      {body : Bytes} {asked : Option ColumnSet} {row : Row} :
      ReadsEntry snapshot shape.table access false index indexed primaryKey →
      readRowBody snapshot shape.table primaryKey = some body →
      decodeRowColumns shape.table primaryKey body asked = .ok row →
      KeyOrigin snapshot shape access primaryKey
        (extendRow row shape.compute shape.transient none)
  | entry {index : IndexDef} {indexed primaryKey : List Value}
      {held : Option (Nat × Value)} :
      ReadsEntry snapshot shape.table access true index indexed primaryKey →
      KeyOrigin snapshot shape access primaryKey (extendRow
          (rowFromIndexEntry shape.table index indexed primaryKey shape.decodeColumns)
          shape.compute shape.transient held)

namespace KeyOrigin

variable
  {snapshot : Snapshot}
  {shape : RowShape}
  {access : Access}
  {primaryKey : List Value}
  {row : Row}

theorem exists_of_origin
    (origin : Origin snapshot shape access row) :
    ∃ primaryKey, KeyOrigin snapshot shape access primaryKey row := by
  cases origin with
  | stored reads held _ decodes => exact ⟨_, .stored reads held decodes⟩
  | fetched reads held _ decodes => exact ⟨_, .fetched reads held decodes⟩
  | entry reads => exact ⟨_, .entry reads⟩

omit [Platform] in
theorem whole_of_readsEntry
    {covering : Bool} {index : IndexDef} {indexed : List Value}
    (reads : ReadsEntry snapshot shape.table access covering index indexed primaryKey) :
    primaryKey.length = shape.table.primaryKey.length := by
  obtain ⟨_, _, _, _, _, _, _, _, decodes⟩ := reads.found
  have whole {bytes : Bytes} {values : List Value}
      (success : decode bytes shape.table.primaryKeyTypes = .ok values) :
      values.length = shape.table.primaryKey.length := by
    rw [length_of_decode success, TableDef.primaryKeyTypes, TableDef.keyTypes,
      length_map]
  rw [decodeIndexEntry] at decodes
  split at decodes
  · cases decodes
  · obtain ⟨_, _, decodes⟩ := bind_eq_ok.mp decodes
    obtain ⟨⟨_, _⟩, _, decodes⟩ := bind_eq_ok.mp decodes
    dsimp only at decodes
    split at decodes
    · split at decodes
      · cases decodes
      · obtain ⟨_, isKey, decodes⟩ := bind_eq_ok.mp decodes
        cases decodes
        exact whole (liftTuple_eq_ok.mp isKey)
    · split at decodes
      · cases decodes
      · obtain ⟨_, isKey, decodes⟩ := bind_eq_ok.mp decodes
        cases decodes
        exact whole (liftTuple_eq_ok.mp isKey)

theorem whole
    (names : access.NamesWholeKeys shape.table)
    (origin : KeyOrigin snapshot shape access primaryKey row) :
    primaryKey.length = shape.table.primaryKey.length := by
  cases origin with
  | stored reads _ _ =>
      cases reads with
      | point => exact names
      | points member => exact names _ member
      | scan _ decodes =>
          rw [decodeRowKey] at decodes
          split at decodes
          · cases decodes
          · rw [length_of_decode (liftTuple_eq_ok.mp decodes),
              TableDef.primaryKeyTypes, TableDef.keyTypes, length_map]
  | fetched reads _ _
  | entry reads => exact whole_of_readsEntry reads

theorem keyedBy
    (wellFormed : shape.table.WellFormed)
    (needed : shape.compute = [] → shape.transient = [])
    (names : access.NamesWholeKeys shape.table)
    (origin : KeyOrigin snapshot shape access primaryKey row) :
    row.KeyedBy shape.table shape.transient primaryKey := by
  have isWhole := origin.whole names
  cases origin with
  | stored _ _ decodes
  | fetched _ _ decodes =>
      obtain ⟨values, width, rfl⟩ := exists_fillKey_of_decodeRowColumns decodes
      exact (Row.KeyedBy.fillKey wellFormed isWhole width).extendRow
        wellFormed needed none
  | entry _ =>
      refine (Row.KeyedBy.fillKey wellFormed isWhole ?_).extendRow wellFormed needed _
      rw [length_fillIndexed, length_replicate]

end KeyOrigin

end

/-! ## Plans -/

theorem length_of_pointGetColumns
    {constraints : Constraints} {ordinals : List Ordinal}
    {fixed : List (Option Value)} {varying : Option (List Value)}
    (slots : pointGetColumns constraints ordinals = some (fixed, varying)) :
    fixed.length = ordinals.length := by
  induction ordinals generalizing fixed varying with
  | nil =>
      cases slots
      rfl
  | cons ordinal rest ih =>
      rw [pointGetColumns] at slots
      obtain ⟨constraint, _, slots⟩ := Option.bind_eq_some_iff.mp slots
      obtain ⟨⟨others, _⟩, restSlots, slots⟩ := Option.bind_eq_some_iff.mp slots
      have sameLength := ih restSlots
      dsimp only at slots
      split at slots
      · cases slots
        rw [length_cons, length_cons, sameLength]
      · split at slots
        · cases slots
        · obtain ⟨values, _, slots⟩ := Option.bind_eq_some_iff.mp slots
          cases slots
          rw [length_cons, length_cons, sameLength]

theorem length_of_mapM
    {α β : Type} {function : α → Option β} {items : List α} {results : List β}
    (mapped : items.mapM function = some results) :
    results.length = items.length := by
  induction items generalizing results with
  | nil =>
      cases mapped
      rfl
  | cons item rest ih =>
      rw [mapM_cons] at mapped
      obtain ⟨_, _, mapped⟩ := Option.bind_eq_some_iff.mp mapped
      obtain ⟨others, restMapped, mapped⟩ := Option.bind_eq_some_iff.mp mapped
      cases mapped
      rw [length_cons, length_cons, ih restMapped]

/-- Paths that are considered name whole primary keys. -/
theorem namesWholeKeys_candidates
    {context : MatchContext} {hint : Option AccessHint} :
    ∀ candidate ∈ candidates context hint,
      candidate.access.NamesWholeKeys context.table := by
  refine forall_candidates ?_ ?_ ?_
  · rw [matchPrimaryKey]
    split
    · next key isKey =>
        split
        · trivial
        · exact length_of_mapM isKey
    · trivial
  · intro candidate member
    obtain ⟨keys, isKeys, rfl⟩ :=
      Option.map_eq_some_iff.mp (Option.mem_toList.mp member)
    intro key isKey
    rw [pointGetSet] at isKeys
    obtain ⟨⟨fixed, varying⟩, slots, isKeys⟩ := Option.bind_eq_some_iff.mp isKeys
    obtain ⟨values, _, isKeys⟩ := Option.bind_eq_some_iff.mp isKeys
    split at isKeys
    · cases isKeys
    · cases isKeys
      have inKeys := mem_of_mem_dedup isKey
      rw [mem_insertionSort] at inKeys
      obtain ⟨value, _, rfl⟩ := mem_map.mp inKeys
      rw [length_map]
      exact length_of_pointGetColumns slots
  · intro chosen _ candidate member
    obtain ⟨index, _, matched⟩ := mem_filterMap.mp member
    obtain ⟨ranges, covering, isRanges⟩ := entryRanges_of_matchIndex matched
    cases isAccess : candidate.access with
    | indexScan | indexScans | tableScan | nothing => trivial
    | pointGet | pointGets =>
        rw [isAccess] at isRanges
        cases isRanges

theorem namesWholeKeys_planHinted
    (table : TableDef) (predicate : Expr) (order : ScanOrder)
    (projection : Projection) (stats : TableStats) (sort : List SortKey)
    (hint : Option AccessHint) (compute : List Scalar) :
    (planHinted table predicate order projection stats sort hint
      compute).access.NamesWholeKeys table := by
  rcases access_planHinted table predicate order projection stats sort hint
    compute with ⟨-, isNothing⟩ | ⟨candidate, considered, isAccess⟩
  · rw [isNothing]
    trivial
  · rw [isAccess]
    rcases prunedAccess_cases candidate.access with
      isSame | isNothing
    · rw [isSame]
      exact namesWholeKeys_candidates candidate considered
    · rw [isNothing]
      trivial

theorem Access.NamesWholeKeys.resumeAfter
    {table : TableDef} {access later : Access} {order : ScanOrder}
    {boundary : Bytes} (names : access.NamesWholeKeys table)
    (resumed : access.resumeAfter order table boundary = .ok later) :
    later.NamesWholeKeys table := by
  cases access with
  | pointGet one =>
      have either (past : Bool) : (if past then Access.pointGet one
          else Access.nothing).NamesWholeKeys table := by
        cases past with
        | false => trivial
        | true => exact names
      cases resumed
      exact either _
  | tableScan | nothing =>
      cases resumed
      trivial
  | indexScan | indexScans | pointGets => cases resumed

theorem namesWholeKeys_resumeAfter
    {table : TableDef} {plan later : Plan} {key : List Value}
    (names : plan.access.NamesWholeKeys table)
    (resumed : plan.resumeAfter table key = .ok later) :
    later.access.NamesWholeKeys table ∧ later.outputColumns = plan.outputColumns ∧
      later.concealed = plan.concealed := by
  obtain ⟨_, access, isAccess, rfl⟩ := Plan.resumeAfter_eq_ok_iff.mp resumed
  have names' := names.resumeAfter isAccess
  refine ⟨?_, rfl, rfl⟩
  dsimp only
  split
  · split <;> trivial
  · exact names'

namespace PagedQuery

variable
  {reads : SecuredReads}
  {context : SecurityContext}
  {table : TableDef}
  {query : PagedQuery}

variable (reads context table query) in
/--
The columns of a query's rows that are blanked: those its caller does not see,
and those that are neither filtered, sorted nor asked for, and that computed
columns read.
-/
def blanked (predicate : Expr) : List Ordinal :=
  reads.security.concealed context table ++
    transientColumns table.columns.length (planOutputColumns table predicate
        (widened (query.shown reads context table).projection query.window)
        query.sort)
      query.compute

/-- What a plan that conceals nothing outputs, and the keys that it names. -/
theorem planSecured_spec
    {plan : Plan}
    (planned : query.planSecured reads context table = .ok plan) :
    ∃ predicate, reads.secured context table query.toQuery = .ok predicate ∧
      plan.concealed = [] ∧
      plan.outputColumns = planOutputColumns table predicate
        (widened query.projection query.window) query.sort ∧
      plan.access.NamesWholeKeys table := by
  cases isPaging : query.paging with
  | true =>
      obtain ⟨predicate, isFilter, noWindow, planned⟩ :=
        (planSecured_eq_ok_iff isPaging).mp planned
      have names := namesWholeKeys_planHinted table predicate query.order
        query.projection (reads.statistics table) query.sort
        (query.hint.or (some .tableScan)) query.compute
      have isWidened : widened query.projection query.window =
          query.projection := by
        rw [noWindow]
        rfl
      obtain ⟨-, isPlan⟩ := planPage_eq_ok_iff.mp planned
      rw [isWidened]
      split at isPlan
      · obtain ⟨names', sameOutput, sameConcealed⟩ :=
          namesWholeKeys_resumeAfter names isPlan
        refine ⟨predicate, isFilter, ?_, ?_, names'⟩
        · rw [sameConcealed, concealed_planHinted]
        · rw [sameOutput, outputColumns_planHinted]
      · subst isPlan
        exact ⟨predicate, isFilter, concealed_planHinted ..,
          outputColumns_planHinted .., names⟩
  | false =>
      rw [planSecured] at planned
      obtain ⟨predicate, isFilter, planned⟩ := bind_eq_ok.mp planned
      split at planned
      · cases planned
      · rw [isPaging] at planned
        cases planned
        exact ⟨predicate, isFilter, concealed_planHinted ..,
          outputColumns_planHinted .., namesWholeKeys_planHinted ..⟩

/-- What a plan of a query conceals and outputs, and the keys that it names. -/
theorem plan_spec
    {plan : Plan}
    (planned : query.plan reads context table = .ok plan) :
    ∃ predicate, query.admitted reads context table = .ok predicate ∧
      plan.concealed = reads.security.concealed context table ∧
      plan.outputColumns = planOutputColumns table predicate
        (widened (query.shown reads context table).projection query.window)
        query.sort ∧
      plan.access.NamesWholeKeys table := by
  rw [PagedQuery.plan] at planned
  rw [admitted, shown, SecuredReads.shown, SecurityCatalog.concealed]
  obtain ⟨_, allowed, planned⟩ := bind_eq_ok.mp planned
  rw [allowed]
  cases isReadable : reads.security.readable context table with
  | none =>
      rw [isReadable] at planned
      obtain ⟨predicate, isFilter, unconcealed, isOutput, names⟩ :=
        planSecured_spec planned
      exact ⟨predicate, isFilter, unconcealed, isOutput, names⟩
  | some readable =>
      rw [isReadable] at planned
      obtain ⟨_, named, planned⟩ := bind_eq_ok.mp planned
      obtain ⟨made, isMade, isPlan⟩ := bind_eq_ok.mp planned
      cases isPlan
      obtain ⟨predicate, isFilter, -, isOutput, names⟩ := planSecured_spec isMade
      rw [readableProjection, secured_readableProjection] at isFilter
      refine ⟨predicate, ?_, ?_, ?_, names⟩
      · exact bind_eq_ok.mpr ⟨_, rfl, bind_eq_ok.mpr ⟨_, named, isFilter⟩⟩
      · rw [SecurityCatalog.concealed, isReadable]
      · have sameSort : (SlateOrm.readableProjection query.toQuery
            readable).sort = query.sort := by
          rw [SlateOrm.readableProjection.eq_def]
          split <;> rfl
        exact isOutput.trans (congrArg (planOutputColumns table predicate _) sameSort)

end PagedQuery

/-! ## Returned rows -/

namespace Cursor

variable {α : Type}

theorem All.withWindow
    {holds : α → Prop} {cursor : Cursor α} (all : cursor.All holds)
    (window : RowWindow) :
    (cursor.withWindow window).All holds := by
  have skipped (count : Nat) : (cursor.skip count).All holds := by
    induction cursor generalizing count with
    | exhausted | failed error => cases count <;> trivial
    | yields item rest ih =>
        cases count with
        | zero => exact all
        | succ count => exact ih all.2 count
  have stopped {cursor : Cursor α} (all : cursor.All holds) (count : Nat) :
      (cursor.stopAfter count).All holds := by
    induction cursor generalizing count with
    | exhausted | failed error => cases count <;> trivial
    | yields item rest ih =>
        cases count with
        | zero => trivial
        | succ count => exact ⟨all.1, ih all.2 count⟩
  rw [Cursor.withWindow]
  split
  · exact skipped _
  · exact stopped (skipped _) _

/-- The last result before the end, or before a failure. -/
def last : Cursor α → Option α
  | .exhausted => none
  | .failed _ => none
  | .yields item rest => some (rest.last.getD item)

theorem All.of_last
    {holds : α → Prop} {cursor : Cursor α} (all : cursor.All holds) {item : α}
    (isLast : cursor.last = some item) :
    holds item := by
  induction cursor generalizing item with
  | exhausted | failed error => cases isLast
  | yields first rest ih =>
      cases isLast
      cases isRest : rest.last with
      | none => exact all.1
      | some other => exact ih all.2 isRest

end Cursor

/--
The primary key of the last row that was read, which the next page of a table,
or of a join that the table drives, goes on after.
-/
def pageEnd (table : TableDef) (rows : Cursor Row) : Option (List Value) :=
  rows.last.map (fun row => row.primaryKeyValues table)

namespace PagedQuery

variable [Platform]

/--
A row that a plan of a query returns of one that it reads under a primary key:
widened by windows, and without what its caller does not see.
-/
def Returns (query : PagedQuery) (table : TableDef) (snapshot : Snapshot)
    (plan : Plan) (primaryKey : List Value) (row : Row) : Prop :=
  ∃ made extra, KeyOrigin snapshot (rowShape table plan query.compute) plan.access
        primaryKey made ∧
      row = conceal ⟨made.values ++ extra⟩ plan.concealed

variable
  {reads : SecuredReads}
  {context : SecurityContext}
  {table : TableDef}
  {query : PagedQuery}
  {heap : BinaryHeap}
  {limits : ExecutionLimits}
  {snapshot : Snapshot}
  {plan : Plan}
  {cursor : Cursor Row}

omit [Platform] in
theorem forall_collected
    {holds : Row → Prop} (all : cursor.All holds) {refusal : KernelError}
    {limit : Nat} {rows : List Row}
    (collected : cursor.collectAtMost refusal limit = .ok rows) :
    ∀ row ∈ rows, holds row :=
  all.of_mem_collect (Cursor.collect_of_collectAtMost collected)

omit [Platform] in
theorem forall_sortRows
    {holds : Row → Prop} (lawful : heap.Lawful) (all : cursor.All holds)
    {window : RowWindow} {keys : List SortKey} {sorted : List Row}
    (isSorted : sortRows heap limits window keys cursor = .ok sorted) :
    ∀ row ∈ sorted, holds row := by
  intro row member
  rw [sortRows] at isSorted
  split at isSorted
  · dsimp only at isSorted
    split at isSorted
    · obtain ⟨rows, collected, isTop⟩ := bind_eq_ok.mp isSorted
      cases isTop
      exact all.of_mem_collect collected row (lawful.topN_subset _ _ rows member)
    · cases isSorted
      cases member
  · obtain ⟨rows, collected, isSorted⟩ := bind_eq_ok.mp isSorted
    cases isSorted
    exact forall_collected all collected row (mem_mergeSort.mp member)

omit [Platform] in
theorem exists_of_evaluateWindows
    {windows : List Window} {rows widened : List Row}
    (evaluated : evaluateWindows windows rows limits = .ok widened)
    {row : Row}
    (member : row ∈ widened) :
    ∃ base ∈ rows, ∃ extra : List Value,
      extra.length = windows.length ∧ row = ⟨base.values ++ extra⟩ := by
  obtain ⟨place, inside, rfl⟩ := mem_iff_getElem.mp member
  obtain ⟨sameLength, wider⟩ :=
    forall₂_iff_get.mp (forall₂_evaluateWindows evaluated)
  have inRows : place < rows.length := sameLength ▸ inside
  exact ⟨rows[place], getElem_mem inRows, wider place inRows inside⟩

/-- Every row of a carried-out plan is one that it returns. -/
theorem all_openPlan
    (lawful : heap.Lawful)
    (opened : query.openPlan table heap limits snapshot plan = .ok cursor) :
    cursor.All (fun row => ∃ primaryKey,
      query.Returns table snapshot plan primaryKey row) := by
  have read := (all_source snapshot (rowShape table plan query.compute)
    plan.order plan.access).imp (fun row origin => KeyOrigin.exists_of_origin origin)
  have returned {row : Row} (extra : List Value)
      (isRead : ∃ primaryKey, KeyOrigin snapshot
        (rowShape table plan query.compute) plan.access primaryKey row) :
      ∃ primaryKey, query.Returns table snapshot plan primaryKey
        (conceal ⟨row.values ++ extra⟩ plan.concealed) := by
    obtain ⟨primaryKey, origin⟩ := isRead
    exact ⟨primaryKey, row, extra, origin, rfl⟩
  have unwidened {row : Row} (isRead : ∃ primaryKey, KeyOrigin snapshot
        (rowShape table plan query.compute) plan.access primaryKey row) :
      ∃ primaryKey, query.Returns table snapshot plan primaryKey
        (conceal row plan.concealed) := by
    have same := returned [] isRead
    rwa [append_nil] at same
  rw [openPlan] at opened
  dsimp only at opened
  split at opened
  · rw [openWindowed] at opened
    split at opened
    · cases opened
    · dsimp only at opened
      split at opened
      · cases opened
        exact Cursor.all_map ((read.withWindow _).imp
          (fun row isRead => unwidened isRead))
      · obtain ⟨sorted, isSorted, opened⟩ := bind_eq_ok.mp opened
        cases opened
        have inOrder := forall_sortRows lawful read isSorted
        refine Cursor.all_map ((Cursor.all_ofList (fun row member other made =>
          ?_)).withWindow _)
        cases made
        exact unwidened (inOrder row member)
  · split at opened
    · cases opened
    · obtain ⟨rows, collected, opened⟩ := bind_eq_ok.mp opened
      obtain ⟨wide, evaluated, opened⟩ := bind_eq_ok.mp opened
      cases opened
      have isWidened : ∀ row ∈ wide, ∃ primaryKey,
          query.Returns table snapshot plan primaryKey
            (conceal row plan.concealed) := by
        intro row member
        obtain ⟨base, inRows, extra, -, rfl⟩ := exists_of_evaluateWindows
          evaluated member
        exact returned extra (forall_collected read collected base inRows)
      refine Cursor.all_map ((Cursor.all_ofList (fun row member other made =>
        ?_)).withWindow _)
      cases made
      refine isWidened row ?_
      split at member
      · exact mem_mergeSort.mp member
      · exact member

variable (reads context table query) in
/-- No column of a primary key is blanked, unless it is null. -/
def KeepsKey (predicate : Expr) (primaryKey : List Value) : Prop :=
  ∀ entry ∈ table.primaryKey.zip primaryKey,
    entry.1 ∈ query.blanked reads context table predicate → entry.2 = .null

theorem Returns.primaryKeyValues_eq_iff
    {predicate : Expr} {primaryKey : List Value} {row : Row}
    (returns : query.Returns table snapshot plan primaryKey row)
    (wellFormed : table.WellFormed)
    (concealed : plan.concealed = reads.security.concealed context table)
    (output : plan.outputColumns = planOutputColumns table predicate
      (widened (query.shown reads context table).projection query.window)
      query.sort)
    (names : plan.access.NamesWholeKeys table) :
    row.primaryKeyValues table = primaryKey ↔
      query.KeepsKey reads context table predicate primaryKey := by
  obtain ⟨made, extra, origin, rfl⟩ := returns
  have needed (none_ : (rowShape table plan query.compute).compute = []) :
      (rowShape table plan query.compute).transient = [] := by
    change query.compute = [] at none_
    rw [rowShape, none_]
    rfl
  have keyed := ((origin.keyedBy wellFormed needed names).append wellFormed
    extra).blank plan.concealed
  have isBlanked : plan.concealed ++ (rowShape table plan query.compute).transient =
        query.blanked reads context table predicate := by
    rw [blanked, rowShape, concealed, output]
  rw [KeepsKey, ← isBlanked]
  exact keyed.primaryKeyValues_eq_iff (origin.whole names)

/--
Every returned row is read under a primary key, and holds it exactly when no
column of it is blanked, or only nulls are; as does the key that a page ends on.
-/
theorem holdsKey_iff_keepsKey
    (lawful : heap.Lawful)
    (wellFormed : table.WellFormed)
    (executed : query.execute reads context table heap snapshot = .ok cursor) :
    ∃ plan predicate, query.plan reads context table = .ok plan ∧
      query.admitted reads context table = .ok predicate ∧
      cursor.All (fun row =>
        (∃ primaryKey, query.Returns table snapshot plan primaryKey row) ∧
        ∀ primaryKey, query.Returns table snapshot plan primaryKey row →
          (row.primaryKeyValues table = primaryKey ↔
            query.KeepsKey reads context table predicate primaryKey)) ∧
      ∀ boundary, pageEnd table cursor = some boundary → ∃ row, cursor.last = some row ∧
          (∃ primaryKey, query.Returns table snapshot plan primaryKey row) ∧
          ∀ primaryKey, query.Returns table snapshot plan primaryKey row →
            (boundary = primaryKey ↔
              query.KeepsKey reads context table predicate primaryKey) := by
  obtain ⟨plan, planned, opened⟩ := bind_eq_ok.mp executed
  obtain ⟨predicate, isAdmitted, concealed, output, names⟩ := plan_spec planned
  have holds (row : Row) (primaryKey : List Value)
      (returns : query.Returns table snapshot plan primaryKey row) :
      row.primaryKeyValues table = primaryKey ↔
        query.KeepsKey reads context table predicate primaryKey :=
    returns.primaryKeyValues_eq_iff wellFormed concealed output names
  have returned := (all_openPlan lawful opened).imp
    (fun row isReturned => And.intro isReturned (holds row))
  refine ⟨plan, predicate, planned, isAdmitted, returned, ?_⟩
  intro boundary ends
  obtain ⟨row, isLast, rfl⟩ := Option.map_eq_some_iff.mp ends
  exact ⟨row, isLast, returned.of_last isLast⟩

end PagedQuery

section

local instance : Platform := asciiPlatform

/-- The words of the poems, with their ids computed. -/
def poemIds : PagedQuery where
  projection := .columns [1]
  compute := [.column 0]
  limit := some 10

theorem planned_poemIds :
    ∃ plan range, poemIds.plan indifferentReads .superuser (poems .asc) = .ok plan ∧
        plan.access = .tableScan range ∧
        range.contains (rowKey (poems .asc) [.i64 7]) = true ∧
        plan.concealed = [] ∧
        transientColumns 2 plan.outputColumns [.column 0] = [0] :=
  ⟨_, _, rfl, rfl, by decide, rfl, by decide⟩

/-- The stored poem, and a row of it whose key is blanked. -/
def poemWords : Option (Int64 × Int64 × Bool) := do
  let state ← poemStore .asc
  let body ← state.transaction.get (Keys.rowKey (poems .asc) [.i64 7])
  let stored ← (decodeRowColumns (poems .asc) [.i64 7] body none).toOption
  let cursor ← (poemIds.execute indifferentReads .superuser (poems .asc) .searched
      state.transaction).toOption
  let rows ← cursor.collect.toOption
  match stored.values, rows with
  | [.i64 id, .str words], [⟨[.null, .str shown, .i64 computed]⟩] =>
      return (id, computed, words == shown)
  | _, _ => none

theorem exists_poemRow :
    ∃ state body stored cursor words, poemStore .asc = some state ∧
        state.transaction.get (rowKey (poems .asc) [.i64 7]) = some body ∧
        decodeRowColumns (poems .asc) [.i64 7] body none = .ok stored ∧
        stored.values = [.i64 7, .str words] ∧
        poemIds.execute indifferentReads .superuser (poems .asc) .searched
          state.transaction = .ok cursor ∧
        cursor.collect = .ok [⟨[.null, .str words, .i64 7]⟩] := by
  have isRead : poemWords = some (7, 7, true) := by
    decide +kernel
  rw [poemWords] at isRead
  obtain ⟨state, isStore, isRead⟩ := Option.bind_eq_some_iff.mp isRead
  obtain ⟨body, held, isRead⟩ := Option.bind_eq_some_iff.mp isRead
  obtain ⟨stored, decodes, isRead⟩ := Option.bind_eq_some_iff.mp isRead
  obtain ⟨cursor, executed, isRead⟩ := Option.bind_eq_some_iff.mp isRead
  obtain ⟨rows, collected, isRead⟩ := Option.bind_eq_some_iff.mp isRead
  split at isRead
  · next id words shown computed isStored =>
      simp only [Option.pure_def, Option.some.injEq, Prod.mk.injEq,
        beq_iff_eq] at isRead
      obtain ⟨rfl, rfl, rfl⟩ := isRead
      exact ⟨state, body, stored, cursor, words, isStore, held, eq_ok_of_toOption
        decodes, isStored, eq_ok_of_toOption executed, eq_ok_of_toOption collected⟩
  · cases isRead

/-- The key of the poem is blanked, and held by no row of the query. -/
theorem holdsKey_iff_keepsKey_poemIds :
    ∃ state cursor plan predicate, poemStore .asc = some state ∧
        poemIds.execute indifferentReads .superuser (poems .asc) .searched
          state.transaction = .ok cursor ∧
        cursor.All (fun row => ∃ primaryKey,
          poemIds.Returns (poems .asc) state.transaction plan primaryKey row ∧
          (row.primaryKeyValues (poems .asc) = primaryKey ↔
            poemIds.KeepsKey indifferentReads .superuser (poems .asc) predicate
              primaryKey)) := by
  obtain ⟨state, -, -, cursor, -, isStore, -, -, -, executed, -⟩ := exists_poemRow
  obtain ⟨plan, predicate, -, -, returned, -⟩ :=
    PagedQuery.holdsKey_iff_keepsKey BinaryHeap.lawful_searched
      (TableBuilder.build_wellFormed (built_poems .asc)) executed
  refine ⟨state, cursor, plan, predicate, isStore, executed, ?_⟩
  refine returned.imp (fun row isReturned => ?_)
  obtain ⟨⟨primaryKey, returns⟩, holds⟩ := isReturned
  exact ⟨primaryKey, returns, holds primaryKey returns⟩

/-- A computed column blanks the key that it reads. -/
theorem not_holdsKey_poemIds :
    ¬∀ (_ : Platform) (heap : BinaryHeap), heap.Lawful →
      ∀ (reads : SecuredReads) (snapshot : Snapshot)
        (context : SecurityContext) (table : TableDef), table.WellFormed →
      ∀ (query : PagedQuery) (plan : Plan) (cursor : Cursor Row),
        query.plan reads context table = .ok plan →
        query.execute reads context table heap snapshot = .ok cursor →
        cursor.All (fun row => ∀ primaryKey,
          query.Returns table snapshot plan primaryKey row →
            row.primaryKeyValues table = primaryKey) := by
  intro always
  obtain ⟨plan, range, planned, isAccess, inRange, concealed, transient⟩ :=
    planned_poemIds
  obtain ⟨state, body, ⟨_⟩, cursor, words, -, held, decodes, rfl, executed,
    collected⟩ := exists_poemRow
  have holds := (always asciiPlatform .searched BinaryHeap.lawful_searched
    indifferentReads state.transaction .superuser (poems .asc)
    (TableBuilder.build_wellFormed (built_poems .asc)) poemIds plan cursor
    planned executed).of_mem_collect collected _ (mem_singleton.mpr rfl)
  have reads : ReadsKey (poems .asc) plan.access
      (rowKey (poems .asc) [.i64 7]) [.i64 7] := by
    rw [isAccess]
    exact .scan inRange rfl
  have isHeld := holds [.i64 7] ⟨_, [], .stored reads held decodes, by
    rw [concealed, rowShape]
    dsimp only
    rw [show (poems .asc).columns.length = 2 from rfl,
      show poemIds.compute = [.column 0] from rfl, transient]
    rfl⟩
  cases isHeld

end

end SlateOrm
