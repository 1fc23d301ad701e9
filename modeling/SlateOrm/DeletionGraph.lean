import SlateOrm.DeletionClosure
import SlateOrm.ReferencingRows
import SlateOrm.SoftDelete
import SlateOrm.Worklist

namespace SlateOrm

open List RecordTransaction

/-!
# Deletions as a graph

The rows of a store and the foreign keys between them are a graph.  A deletion
takes the rows that cascading references lead to from its row, retired ones left
out, and it is refused exactly when a row that it does not take, retired or not,
references one that it takes and restricts that.
-/

/-! ## References -/

/-- A row and the table it is of. -/
abbrev Node : Type := TableDef × Row

/-- The rows of every table of a catalog, as they are read. -/
def Catalog.ReadsAs {catalog : Catalog} [Platform]
    (wellFormed : catalog.WellFormed) (snapshot : Snapshot)
    (rows : TableDef → List Row) : Prop :=
  ∀ table ∈ catalog.tables, ReadableTable wellFormed snapshot table (rows table)

namespace Catalog

variable
  (catalog : Catalog)
  (rows : TableDef → List Row)

/-- A stored row that references another through a foreign key of some kind. -/
def References (action : ReferentialAction) (parent child : Node) : Prop :=
  child.2 ∈ rows child.1 ∧ ∃ foreignKey,
    (child.1, foreignKey) ∈ catalog.referencing parent.1.id ∧
      foreignKey.onDelete = action ∧
      foreignKey.Holds (parent.2.primaryKeyValues parent.1) child.2

/-- A row that goes with another: it cascades, and it is not retired. -/
def Cascades (parent child : Node) : Prop :=
  catalog.References rows .cascade parent child ∧ child.1.Live child.2

/-- The rows that go with a row, the least set that cascades stay in. -/
def Doomed (root node : Node) : Prop :=
  Relation.ReflTransGen (catalog.Cascades rows) root node

/-- A row that stays restricts the deletion of a row that goes. -/
def Restricted (root : Node) : Prop := ∃ parent child, catalog.Doomed rows root parent ∧
    catalog.References rows .restrict parent child ∧
    ¬catalog.Doomed rows root child

/-- More rows go with a row than a deletion may take. -/
def CascadesTooFar (root : Node) : Prop :=
  ∃ nodes : List Node, CASCADE_LIMIT < nodes.length ∧ nodes.Nodup ∧
    ∀ node ∈ nodes, catalog.Doomed rows root node

end Catalog

/-! ## Found rows -/

/-- A row that was found is equal to a stored one. -/
def Tracks (found node : Node) : Prop := found.1 = node.1 ∧ found.2.Same node.2

theorem ForeignKeyDef.Holds.congr
    {foreignKey : ForeignKeyDef} {parentKey parentKey' : List Value}
    (same : parentKey.map Value.canonical = parentKey'.map Value.canonical)
    {row : Row}
    (isHeld : foreignKey.Holds parentKey row) :
    foreignKey.Holds parentKey' row := by
  intro pair member
  obtain ⟨place, inside, isPair⟩ := mem_iff_getElem.mp member
  rw [length_zip] at inside
  have inColumns : place < foreignKey.columns.length := by omega
  have inKey' : place < parentKey'.length := by omega
  have lengths := congrArg length same
  rw [length_map, length_map] at lengths
  have inKey : place < parentKey.length := by omega
  have isColumn : pair = (foreignKey.columns[place], parentKey'[place]) := by
    rw [← isPair, getElem_zip]
  have sameValue : (parentKey[place]).canonical = (parentKey'[place]).canonical := by
    have here := congrArg (fun values => values[place]?) same
    simpa [inKey, inKey'] using here
  obtain ⟨value, isValue, notNull, equal⟩ := isHeld
    (foreignKey.columns[place], parentKey[place])
    (mem_iff_getElem.mpr ⟨place, by
      rw [length_zip]
      omega, getElem_zip⟩)
  rw [isColumn]
  exact ⟨value, isValue, notNull, equal.trans sameValue⟩

section

variable [Platform]

variable
  {catalog : Catalog}
  {wellFormed : catalog.WellFormed}
  {snapshot : Snapshot}
  {rows : TableDef → List Row}

/-- A node of a store: a stored row of a table of the catalog. -/
def Catalog.Stores (catalog : Catalog) (rows : TableDef → List Row)
    (node : Node) : Prop :=
  node.1 ∈ catalog.tables ∧ node.2 ∈ rows node.1

namespace Tracks

variable
  {found other node node' : Node}

omit [Platform] in
theorem homeOf
    (tracks : Tracks found node) :
    homeOf found = homeOf node := by
  rw [RecordTransaction.homeOf, RecordTransaction.homeOf, tracks.1, tracks.2.rowKey]

theorem eq_of_homeOf
    (readsAs : catalog.ReadsAs wellFormed snapshot rows)
    (tracks : Tracks found node) (tracks' : Tracks other node')
    (stored : catalog.Stores rows node) (stored' : catalog.Stores rows node')
    (sameHome : RecordTransaction.homeOf found = RecordTransaction.homeOf other) :
    node = node' := by
  rw [tracks.homeOf, tracks'.homeOf] at sameHome
  obtain ⟨table, row⟩ := node
  obtain ⟨table', row'⟩ := node'
  obtain ⟨record, isStored, same⟩ := (readsAs table stored.1).exists_record stored.2
  obtain ⟨record', isStored', same'⟩ :=
    (readsAs table' stored'.1).exists_record stored'.2
  have sameKey : record.key = record'.key := by
    rw [CatalogRow.key, CatalogRow.key, isStored.ofTable, isStored'.ofTable,
      ← same.rowKey, ← same'.rowKey]
    exact sameHome
  have sameTable : table = table' := by
    rw [← isStored.ofTable, ← isStored'.ofTable]
    exact (CatalogRow.table_of_key wellFormed sameKey).1
  cases sameTable
  have nodup := pairwise_map.mpr (readsAs table stored.1).pairwise_rowKey
  exact congrArg (Prod.mk table) (inj_on_of_nodup_map nodup stored.2 stored'.2 sameHome)

end Tracks

omit [Platform] in
theorem foldlM_flatMap_of_view
    {ε α β σ τ : Type} {step : σ → α → Except ε σ} {step' : τ → β → Except ε τ}
    (view : σ → τ) (expand : α → List β) {values : List α}
    (steps : ∀ value ∈ values, ∀ state, (step state value).map view =
      (expand value).foldlM step' (view state))
    (start : σ) :
    (values.foldlM step start).map view =
      (values.flatMap expand).foldlM step' (view start) := by
  induction values generalizing start with
  | nil => rfl
  | cons value rest ih =>
      rw [foldlM_cons, flatMap_cons, foldlM_append, ← steps value (mem_cons_self ..)]
      cases step start value with
      | error refusal => rfl
      | ok after =>
          exact ih (fun other member => steps other (mem_cons_of_mem _ member)) after

variable {edge : TableDef × ForeignKeyDef}

namespace RecordTransaction

variable
  (records : RecordTransaction)
  (snapshot : Snapshot)

/-! ## Searches -/

/-- What a search for a key in a foreign key finds. -/
def searched (retired : Deleted) (parentKey : List Value)
    (edge : TableDef × ForeignKeyDef) : List Node :=
  match records.referencingRows .superuser edge.1 edge.2 parentKey retired
      snapshot with
  | .ok found => found.map (fun row => (edge.1, row))
  | .error _ => []

/-- What a row takes with it. -/
def takes (node : Node) : List Node :=
  (records.catalog.referencing node.1.id).flatMap (fun edge =>
    if edge.2.onDelete = .cascade then
      records.searched snapshot .hidden (node.2.primaryKeyValues node.1) edge
    else
      [])

/-- The refusal of a deletion that takes too much. -/
def tooLarge (root : TableDef) : KernelError :=
  .schema (.cascadeTooLarge root.name CASCADE_LIMIT)

/-- A deletion so far as a walk. -/
def Closure.walked (closure : Closure) : Worklist Node Bytes :=
  ⟨closure.rows, closure.scheduled⟩

omit [Platform] in
theorem schedule_eq_offer
    (root child : TableDef) (closure : Closure) (found : Row) :
    (schedule root child closure found).map Closure.walked =
      Worklist.offer homeOf CASCADE_LIMIT (tooLarge root) closure.walked
        (child, found) := by
  by_cases isSeen : closure.scheduled.contains (homeOf (child, found)) = true
  · rw [schedule, Worklist.offer]
    exact (congrArg _ (if_pos isSeen)).trans (if_pos isSeen).symm
  · by_cases isFull : CASCADE_LIMIT ≤ closure.rows.length
    · rw [schedule, Worklist.offer]
      exact (congrArg _ ((if_neg isSeen).trans (if_pos isFull))).trans
        ((if_neg isSeen).trans (if_pos isFull)).symm
    · rw [schedule, Worklist.offer]
      exact (congrArg _ ((if_neg isSeen).trans (if_neg isFull))).trans
        ((if_neg isSeen).trans (if_neg isFull)).symm

variable
  {records : RecordTransaction}
  {wellFormed : records.catalog.WellFormed}
  {snapshot : Snapshot}
  (readsAs : records.catalog.ReadsAs wellFormed snapshot rows)

include readsAs

theorem exists_searched
    {parent : TableId}
    (isEdge : edge ∈ records.catalog.referencing parent)
    (retired : Deleted) (parentKey : List Value) :
    ∃ found, records.referencingRows .superuser edge.1 edge.2 parentKey
        retired snapshot = .ok found ∧
      records.searched snapshot retired parentKey edge =
        found.map (fun row => (edge.1, row)) ∧
      (∀ row ∈ found, ∃ stored ∈ rows edge.1, row.Same stored ∧
        edge.2.Holds parentKey stored ∧ (retired = .hidden → edge.1.Live stored)) ∧
      ∀ stored ∈ rows edge.1, edge.2.Holds parentKey stored →
        (retired = .hidden → edge.1.Live stored) → ∃ row ∈ found, row.Same stored := by
  obtain ⟨found, isFound, sound, complete⟩ := records.exists_referencingRows
    (readsAs edge.1 (Catalog.mem_of_referencing isEdge).1) edge.2 parentKey retired
  refine ⟨found, isFound, ?_, sound, complete⟩
  rw [searched, isFound]

theorem cascadeThrough_eq
    (root : TableDef) {parent : TableId}
    (isEdge : edge ∈ records.catalog.referencing parent)
    (parentKey : List Value) (closure : Closure) :
    (records.cascadeThrough root parentKey snapshot closure edge).map Closure.walked =
      (if edge.2.onDelete = .cascade then
        records.searched snapshot .hidden parentKey edge
      else
        []).foldlM (Worklist.offer homeOf CASCADE_LIMIT (tooLarge root))
          closure.walked := by
  by_cases isCascade : edge.2.onDelete = .cascade
  · obtain ⟨found, isFound, isSearched, -⟩ := exists_searched readsAs isEdge
      .hidden parentKey
    rw [cascadeThrough, if_neg (not_not.mpr isCascade), if_pos isCascade,
      isFound, isSearched, map_eq_flatMap]
    exact foldlM_flatMap_of_view Closure.walked _ (fun row _ state => by
      rw [schedule_eq_offer]
      exact (bind_pure _).symm) closure
  · rw [cascadeThrough, if_pos isCascade, if_neg isCascade]
    rfl

theorem cascadeFrom_eq_walk
    (root : TableDef) (fuel position : Nat) (closure : Closure) :
    (records.cascadeFrom root snapshot fuel position closure).map Closure.walked =
      Worklist.walk homeOf CASCADE_LIMIT (tooLarge root)
        (records.takes snapshot) fuel position closure.walked := by
  induction fuel generalizing position closure with
  | zero => rfl
  | succ fuel ih =>
      rw [cascadeFrom, Worklist.walk, Closure.walked]
      cases closure.rows[position]? with
      | none => rfl
      | some node =>
          have steps : ∀ edge ∈ records.catalog.referencing node.1.id, ∀ state, _ :=
            fun edge isEdge => cascadeThrough_eq readsAs root isEdge
              (node.2.primaryKeyValues node.1)
          have folded := foldlM_flatMap_of_view Closure.walked _ steps closure
          dsimp only
          rw [takes, ← Closure.walked, ← folded]
          cases (records.catalog.referencing node.1.id).foldlM
            (records.cascadeThrough root (node.2.primaryKeyValues node.1)
              snapshot) closure with
          | error refusal => rfl
          | ok after => exact ih (position + 1) after

variable
  {found node : Node}
  (tracks : Tracks found node)

include tracks

theorem exists_cascades
    {kid : Node}
    (isKid : kid ∈ records.takes snapshot found) :
    ∃ child, records.catalog.Cascades rows node child ∧ Tracks kid child := by
  obtain ⟨edge, isEdge, inEdge⟩ := mem_flatMap.mp isKid
  split at inEdge
  · next isCascade =>
      obtain ⟨found, -, isSearched, sound, -⟩ := exists_searched readsAs
        isEdge .hidden (found.2.primaryKeyValues found.1)
      rw [isSearched] at inEdge
      obtain ⟨row, inFound, rfl⟩ := mem_map.mp inEdge
      obtain ⟨stored, inRows, same, isHeld, isLive⟩ := sound row inFound
      rw [tracks.1] at isEdge isHeld
      exact ⟨(edge.1, stored), ⟨⟨inRows, edge.2, isEdge, isCascade, isHeld.congr
        (tracks.2.project node.1.primaryKey)⟩, isLive rfl⟩, rfl, same⟩
  · cases inEdge

theorem exists_takes
    {child : Node} (cascades : records.catalog.Cascades rows node child) :
    ∃ kid ∈ records.takes snapshot found, Tracks kid child := by
  obtain ⟨⟨inRows, foreignKey, isEdge, isCascade, isHeld⟩, isLive⟩ := cascades
  obtain ⟨others, -, isSearched, -, complete⟩ := exists_searched readsAs
    isEdge .hidden (found.2.primaryKeyValues found.1)
  have isHeld' : foreignKey.Holds (found.2.primaryKeyValues found.1)
      child.2 := by
    rw [tracks.1]
    exact isHeld.congr (tracks.2.project node.1.primaryKey).symm
  obtain ⟨row, inFound, same⟩ := complete child.2 inRows isHeld' (fun _ => isLive)
  refine ⟨(child.1, row), mem_flatMap.mpr ⟨(child.1, foreignKey), ?_, ?_⟩, rfl, same⟩
  · rw [tracks.1]
    exact isEdge
  · rw [if_pos isCascade, isSearched]
    exact mem_map_of_mem inFound

/-! ## Walks -/

theorem exists_doomed
    {item : Node}
    (isReached : Worklist.Reached (records.takes snapshot) found item) :
    ∃ goes, records.catalog.Doomed rows node goes ∧ Tracks item goes := by
  induction isReached with
  | refl => exact ⟨node, .refl, tracks⟩
  | tail _ isKid ih =>
      obtain ⟨goes, isDoomed, itemTracks⟩ := ih
      obtain ⟨child, cascades, kidTracks⟩ := exists_cascades readsAs itemTracks isKid
      exact ⟨child, isDoomed.tail cascades, kidTracks⟩

theorem exists_reached
    {goes : Node} (isDoomed : records.catalog.Doomed rows node goes) :
    ∃ item, Worklist.Reached (records.takes snapshot) found item ∧
      Tracks item goes := by
  induction isDoomed with
  | refl => exact ⟨found, .refl, tracks⟩
  | tail _ cascades ih =>
      obtain ⟨item, isReached, itemTracks⟩ := ih
      obtain ⟨kid, isKid, kidTracks⟩ := exists_takes readsAs itemTracks cascades
      exact ⟨kid, isReached.tail isKid, kidTracks⟩

end RecordTransaction

variable {root : Node}

namespace Catalog

omit [Platform] in
theorem Doomed.stores
    {node : Node} (isStored : catalog.Stores rows root)
    (isDoomed : catalog.Doomed rows root node) :
    catalog.Stores rows node := by
  cases isDoomed with
  | refl => exact isStored
  | tail _ cascades =>
      obtain ⟨⟨inRows, foreignKey, isEdge, -⟩, -⟩ := cascades
      exact ⟨(mem_of_referencing isEdge).1, inRows⟩

omit [Platform] in
theorem doomed_of_unreferenced
    (catalog : Catalog) (rows : TableDef → List Row)
    (isLeaf : catalog.referencing root.1.id = [])
    (node : Node) (isDoomed : catalog.Doomed rows root node) :
    node = root := by
  rcases isDoomed.cases_head with isRoot | ⟨child, ⟨⟨-, _, isEdge, -⟩, -⟩, -⟩
  · exact isRoot.symm
  · rw [isLeaf] at isEdge
    cases isEdge

end Catalog

namespace RecordTransaction

variable
  {records : RecordTransaction}
  {wellFormed : records.catalog.WellFormed}
  {snapshot : Snapshot}
  (readsAs : records.catalog.ReadsAs wellFormed snapshot rows)
  {found node : Node}
  (tracks : Tracks found node)
  (isStored : records.catalog.Stores rows node)

include readsAs tracks isStored

theorem respects_takes :
    Worklist.Respects homeOf (records.takes snapshot) found := by
  intro item other isReached isReached' sameHome kid isKid
  obtain ⟨goes, isDoomed, itemTracks⟩ := exists_doomed readsAs tracks isReached
  obtain ⟨goes', isDoomed', otherTracks⟩ := exists_doomed readsAs tracks isReached'
  cases itemTracks.eq_of_homeOf readsAs otherTracks (isDoomed.stores isStored)
    (isDoomed'.stores isStored) sameHome
  obtain ⟨child, cascades, kidTracks⟩ := exists_cascades readsAs itemTracks isKid
  obtain ⟨kid', isKid', kidTracks'⟩ := exists_takes readsAs otherTracks cascades
  exact ⟨kid', isKid', kidTracks'.homeOf.trans kidTracks.homeOf.symm⟩

theorem exceeds_iff_cascadesTooFar :
    Worklist.Exceeds homeOf CASCADE_LIMIT (records.takes snapshot) found ↔
      records.catalog.CascadesTooFar rows node := by
  constructor
  · rintro ⟨items, many, distinct, areReached⟩
    obtain ⟨nodes, beside⟩ := exists_forall₂ (fun item member =>
      exists_doomed readsAs tracks (areReached item member))
    refine ⟨nodes, beside.length_eq ▸ many, ?_, fun goes member => ?_⟩
    · refine pairwise_of_forall₂ ?_ beside (pairwise_map.mp distinct)
      rintro item item' goes _ apart ⟨-, itemTracks⟩ ⟨-, itemTracks'⟩ rfl
      exact apart (itemTracks.homeOf.trans itemTracks'.homeOf.symm)
    · obtain ⟨item, -, isDoomed, -⟩ := exists_beside_right beside goes member
      exact isDoomed
  · rintro ⟨nodes, many, distinct, areDoomed⟩
    obtain ⟨items, beside⟩ := exists_forall₂ (fun goes member =>
      exists_reached readsAs tracks (areDoomed goes member))
    refine ⟨items, beside.length_eq ▸ many, ?_, fun item member => ?_⟩
    · refine pairwise_map.mpr (pairwise_of_forall₂ ?_
        ((forall₂_and_left nodes items).mpr ⟨areDoomed, beside⟩) distinct)
      rintro goes goes' item item' apart ⟨isDoomed, -, itemTracks⟩
        ⟨isDoomed', -, itemTracks'⟩ sameHome
      exact apart (itemTracks.eq_of_homeOf readsAs itemTracks'
        (isDoomed.stores isStored) (isDoomed'.stores isStored) sameHome)
    · obtain ⟨goes, -, isReached, -⟩ := exists_beside_right beside item member
      exact isReached

end RecordTransaction

/-! ## Restrictions -/

/-- A check that passes when something holds, and is refused otherwise. -/
def Decides {ε : Type} (check : Except ε Unit) (refuses : ε → Prop)
    (holds : Prop) : Prop :=
  (check = .ok () ∧ holds) ∨ ∃ error, check = .error error ∧ refuses error ∧ ¬holds

omit [Platform] in
theorem Decides.each
    {ε α : Type} {check : α → Except ε Unit} {refuses : ε → Prop}
    {holds : α → Prop} {values : List α}
    (decides : ∀ value ∈ values, Decides (check value) refuses (holds value)) :
    Decides (checkEach check values) refuses (∀ value ∈ values, holds value) := by
  induction values with
  | nil => exact Or.inl ⟨rfl, nofun⟩
  | cons value rest ih =>
      have ⟨first, others⟩ := forall_mem_cons.mp decides
      rw [checkEach, forall_mem_cons]
      rcases first with ⟨passed, isHeld⟩ | ⟨error, failed, isRefusal, broken⟩
      · rw [passed]
        rcases ih others with ⟨passed, all⟩ |
          ⟨error, failed, isRefusal, broken⟩
        · exact Or.inl ⟨passed, isHeld, all⟩
        · exact Or.inr ⟨error, failed, isRefusal, fun all => broken all.2⟩
      · rw [failed]
        exact Or.inr ⟨error, rfl, isRefusal, fun all => broken all.1⟩

omit [Platform] in
theorem Decides.congr
    {ε : Type} {check : Except ε Unit} {refuses : ε → Prop}
    {holds holds' : Prop} (decides : Decides check refuses holds)
    (same : holds ↔ holds') :
    Decides check refuses holds' := by
  rwa [Decides, ← same]

namespace RecordTransaction

/-- The refusal of a deletion that a reference restricts. -/
def IsRestricted (error : KernelError) : Prop := ∃ parent child foreignKey retired,
    error = .schema (.foreignKeyRestricted parent child foreignKey retired)

/-- What a search finds that restricts the deletion of a row goes with it. -/
def Unblocked (records : RecordTransaction) (scheduled : List Bytes)
    (snapshot : Snapshot) (found : Node) (edge : TableDef × ForeignKeyDef) :
    Prop :=
  edge.2.onDelete = .restrict → ∀ item ∈ records.searched snapshot .visible
    (found.2.primaryKeyValues found.1) edge, homeOf item ∈ scheduled

variable
  {records : RecordTransaction}
  {wellFormed : records.catalog.WellFormed}
  {snapshot : Snapshot}
  (readsAs : records.catalog.ReadsAs wellFormed snapshot rows)

include readsAs

/-- The check of one foreign key looks for what stays and restricts. -/
theorem decides_checkRestrict
    (scheduled : List Bytes) {found : Node}
    (isEdge : edge ∈ records.catalog.referencing found.1.id) :
    Decides (records.checkRestrict scheduled snapshot found.1 found.2 edge)
      IsRestricted (records.Unblocked scheduled snapshot found edge) := by
  by_cases isRestrict : edge.2.onDelete = .restrict
  · obtain ⟨rows, isFound, isSearched, -⟩ := exists_searched readsAs isEdge
      .visible (found.2.primaryKeyValues found.1)
    let blockers := rows.filter (fun row =>
      !scheduled.contains (Keys.rowKey edge.1 (row.primaryKeyValues edge.1)))
    obtain ⟨retired, outcome⟩ : ∃ retired,
        records.checkRestrict scheduled snapshot found.1 found.2 edge =
          if blockers.isEmpty then
            .ok ()
          else
            .error (.schema (.foreignKeyRestricted found.1.name edge.1.name
              edge.2.name retired)) := by
      rw [checkRestrict, if_neg (not_not.mpr isRestrict)]
      dsimp only
      rw [isFound]
      exact ⟨_, rfl⟩
    have blocks : ∀ row, row ∈ blockers ↔
        row ∈ rows ∧ homeOf (edge.1, row) ∉ scheduled := by
      intro row
      rw [mem_filter, Bool.not_eq_true', ← Bool.not_eq_true, contains_iff_mem]
      rfl
    rw [Unblocked, outcome, isSearched]
    cases isBlocked : blockers with
    | nil =>
        refine Or.inl ⟨rfl, fun _ item member => ?_⟩
        obtain ⟨row, inRows, rfl⟩ := mem_map.mp member
        by_contra stays
        have isBlocker := (blocks row).mpr ⟨inRows, stays⟩
        rw [isBlocked] at isBlocker
        cases isBlocker
    | cons row others =>
        obtain ⟨inRows, stays⟩ := (blocks row).mp (isBlocked ▸ mem_cons_self ..)
        exact Or.inr ⟨_, rfl, ⟨_, _, _, retired, rfl⟩, fun goes =>
          stays (goes isRestrict _ (mem_map_of_mem inRows))⟩
  · rw [checkRestrict, if_pos isRestrict]
    exact Or.inl ⟨rfl, fun isRestrict' => absurd isRestrict' isRestrict⟩

/-- A deletion passes its check when no row that stays restricts it. -/
theorem decides_checkRestricts
    {scheduled : List Bytes} {items : List Node}
    (isStored : records.catalog.Stores rows root)
    (sound : ∀ item ∈ items, ∃ node, records.catalog.Doomed rows root node ∧
      Tracks item node)
    (complete : ∀ node, records.catalog.Doomed rows root node →
      ∃ item ∈ items, Tracks item node)
    (listed : ∀ wanted, wanted ∈ scheduled ↔ wanted ∈ items.map homeOf) :
    Decides (checkEach (fun item =>
        checkEach (records.checkRestrict scheduled snapshot item.1 item.2)
          (records.catalog.referencing item.1.id)) items)
      IsRestricted (¬records.catalog.Restricted rows root) := by
  have goes : ∀ item node : Node, Tracks item node → records.catalog.Stores rows node →
        (homeOf item ∈ scheduled ↔ records.catalog.Doomed rows root node) := by
    intro item node tracks isStored'
    rw [listed, mem_map]
    constructor
    · rintro ⟨other, member, sameHome⟩
      obtain ⟨node', isDoomed, tracks'⟩ := sound other member
      rwa [tracks.eq_of_homeOf readsAs tracks' isStored'
        (isDoomed.stores isStored) sameHome.symm]
    · intro isDoomed
      obtain ⟨other, member, tracks'⟩ := complete node isDoomed
      exact ⟨other, member, tracks'.homeOf.trans tracks.homeOf.symm⟩
  have each : ∀ item ∈ items, Decides (checkEach
      (records.checkRestrict scheduled snapshot item.1 item.2)
      (records.catalog.referencing item.1.id)) IsRestricted
        (∀ edge ∈ records.catalog.referencing item.1.id,
          records.Unblocked scheduled snapshot item edge) :=
    fun item _ => Decides.each (fun edge isEdge =>
      decides_checkRestrict readsAs scheduled isEdge)
  refine (Decides.each each).congr ?_
  constructor
  · rintro unblocked ⟨parent, child, isDoomed,
      ⟨inRows, foreignKey, isEdge, isRestrict, isHeld⟩, stays⟩
    obtain ⟨item, member, tracks⟩ := complete parent isDoomed
    rw [← tracks.1] at isEdge
    obtain ⟨found, -, isSearched, -, all⟩ := exists_searched readsAs isEdge
      .visible (item.2.primaryKeyValues item.1)
    have isHeld' : foreignKey.Holds (item.2.primaryKeyValues item.1)
        child.2 := by
      rw [tracks.1]
      exact isHeld.congr (tracks.2.project parent.1.primaryKey).symm
    obtain ⟨row, inFound, same⟩ := all child.2 inRows isHeld' nofun
    have isScheduled := unblocked item member (child.1, foreignKey) isEdge
      isRestrict (child.1, row) (isSearched ▸ mem_map_of_mem inFound)
    exact stays ((goes (child.1, row) child ⟨rfl, same⟩
      ⟨(Catalog.mem_of_referencing isEdge).1, inRows⟩).mp isScheduled)
  · intro unrestricted item member edge isEdge isRestrict other inSearched
    obtain ⟨parent, isDoomed, tracks⟩ := sound item member
    obtain ⟨found, -, isSearched, isFound, -⟩ := exists_searched readsAs
      isEdge .visible (item.2.primaryKeyValues item.1)
    rw [isSearched] at inSearched
    obtain ⟨row, inFound, rfl⟩ := mem_map.mp inSearched
    obtain ⟨stored, inRows, same, isHeld, -⟩ := isFound row inFound
    have inCatalog := (Catalog.mem_of_referencing isEdge).1
    rw [tracks.1] at isEdge isHeld
    refine (goes (edge.1, row) (edge.1, stored) ⟨rfl, same⟩ ⟨inCatalog, inRows⟩).mpr ?_
    by_contra stays
    exact unrestricted ⟨parent, (edge.1, stored), isDoomed, ⟨inRows, edge.2,
      isEdge, isRestrict, isHeld.congr (tracks.2.project parent.1.primaryKey)⟩, stays⟩

/-! ## Deletions -/

/-- What a deletion of a row comes to. -/
inductive ClosesAs (catalog : Catalog) (rows : TableDef → List Row)
    (root : Node) : Except KernelError (List Node) → Prop where
  /-- Too much goes with the row. -/
  | tooLarge : catalog.CascadesTooFar rows root →
      ClosesAs catalog rows root (.error (tooLarge root.1))
  /-- A row that stays restricts the deletion. -/
  | restricted (error : KernelError) : ¬catalog.CascadesTooFar rows root →
      catalog.Restricted rows root →
      IsRestricted error →
      ClosesAs catalog rows root (.error error)
  /-- The rows that go are found, each once. -/
  | doomed (found nodes : List Node) : ¬catalog.CascadesTooFar rows root →
      ¬catalog.Restricted rows root →
      List.Forall₂ Tracks found nodes →
      nodes.Nodup →
      (∀ node, node ∈ nodes ↔ catalog.Doomed rows root node) →
      ClosesAs catalog rows root (.ok found)

/-- The rows of a deletion are found in full, or there are too many. -/
theorem cascadeFrom_cases
    {table : TableDef} {row : Row} (tracks : Tracks (table, row) root)
    (isStored : records.catalog.Stores rows root) :
    (∃ closure, records.cascadeFrom table snapshot CASCADE_LIMIT 0
          ⟨[(table, row)], [homeOf (table, row)]⟩ = .ok closure ∧
        (∀ wanted, wanted ∈ closure.scheduled ↔ wanted ∈ closure.rows.map homeOf) ∧
        (closure.rows.map homeOf).Nodup ∧
        (∀ item ∈ closure.rows, ∃ node,
          records.catalog.Doomed rows root node ∧ Tracks item node) ∧
        (∀ node, records.catalog.Doomed rows root node →
          ∃ item ∈ closure.rows, Tracks item node) ∧
        ¬records.catalog.CascadesTooFar rows root) ∨
    (records.cascadeFrom table snapshot CASCADE_LIMIT 0
        ⟨[(table, row)], [homeOf (table, row)]⟩ = .error (tooLarge table) ∧
      records.catalog.CascadesTooFar rows root) := by
  have isWalk := cascadeFrom_eq_walk readsAs table CASCADE_LIMIT 0
    ⟨[(table, row)], [homeOf (table, row)]⟩
  have exceeds := exceeds_iff_cascadesTooFar readsAs tracks isStored
  rw [Closure.walked] at isWalk
  cases isClosure : records.cascadeFrom table snapshot CASCADE_LIMIT 0
      ⟨[(table, row)], [homeOf (table, row)]⟩ with
  | error refusal =>
      rw [isClosure] at isWalk
      rcases Worklist.walk_root (tooLarge table)
          (respects_takes readsAs tracks isStored)
          (by decide : 1 ≤ CASCADE_LIMIT) with
        ⟨_, isWalked, -⟩ | ⟨refused, tooMany⟩
      · cases isWalk.trans isWalked
      · cases isWalk.trans refused
        exact Or.inr ⟨rfl, exceeds.mp tooMany⟩
  | ok closure =>
      rw [isClosure] at isWalk
      rcases Worklist.walk_root (tooLarge table)
          (respects_takes readsAs tracks isStored)
          (by decide : 1 ≤ CASCADE_LIMIT) with
        ⟨_, isWalked, sound, complete, few⟩ | ⟨refused, -⟩
      · cases isWalk.trans isWalked
        have areDoomed : ∀ item ∈ closure.rows, ∃ node,
            records.catalog.Doomed rows root node ∧ Tracks item node :=
          fun item member => exists_doomed readsAs tracks (sound.reached item member)
        refine Or.inl ⟨closure, rfl, sound.seen, sound.nodup, areDoomed,
          fun node isDoomed => ?_, mt exceeds.mpr few⟩
        obtain ⟨item, isReached, itemTracks⟩ := exists_reached readsAs tracks isDoomed
        obtain ⟨other, member, sameHome⟩ := mem_map.mp
          ((sound.seen _).mp (complete item isReached))
        obtain ⟨node', isDoomed', otherTracks⟩ := areDoomed other member
        rw [itemTracks.eq_of_homeOf readsAs otherTracks
          (isDoomed.stores isStored) (isDoomed'.stores isStored) sameHome.symm]
        exact ⟨other, member, otherTracks⟩
      · cases isWalk.trans refused

/-- A deletion comes to what the graph of its references says. -/
theorem closesAs_deletionClosure
    {context : SecurityContext} {table : TableDef} {row stored : Row}
    (inCatalog : table ∈ records.catalog.tables)
    (isStored : stored ∈ rows table)
    (same : row.Same stored)
    (authorized : ∀ reachable ∈ records.cascadeReachable table,
      records.security.authorize context reachable .delete = .ok ()) :
    ClosesAs records.catalog rows (table, stored)
      (records.deletionClosure context table row snapshot) := by
  have tracks : Tracks (table, row) (table, stored) := ⟨rfl, same⟩
  have isNode : records.catalog.Stores rows (table, stored) := ⟨inCatalog, isStored⟩
  rw [deletionClosure]
  by_cases isLeaf : (records.catalog.referencing table.id).isEmpty = true
  · have alone := records.catalog.doomed_of_unreferenced rows
      (isEmpty_iff.mp isLeaf : records.catalog.referencing
        (table, stored).1.id = [])
    rw [if_pos isLeaf]
    refine .doomed _ [(table, stored)] ?_ ?_ (.cons tracks .nil)
      (nodup_singleton _) (fun node => ?_)
    · rintro ⟨nodes, many, distinct, areDoomed⟩
      have few := (subperm_of_subset distinct (fun node member =>
        mem_singleton.mpr (alone node (areDoomed node member)))).length_le
      exact absurd (Nat.lt_of_lt_of_le many few) (by decide : ¬CASCADE_LIMIT < 1)
    · rintro ⟨parent, child, isDoomed, ⟨-, foreignKey, isEdge, -⟩, -⟩
      rw [alone parent isDoomed, isEmpty_iff.mp isLeaf] at isEdge
      cases isEdge
    · rw [mem_singleton]
      exact ⟨fun isRoot => isRoot ▸ .refl, alone node⟩
  · have passed : checkEach (fun reachable =>
        records.security.authorize context reachable .delete)
          (records.cascadeReachable table) = .ok () :=
      checkEach_of_forall authorized
    rw [if_neg isLeaf, passed]
    rcases cascadeFrom_cases readsAs tracks isNode with
      ⟨closure, isClosure, listed, distinct, areDoomed, areFound, few⟩ |
        ⟨refused, tooMany⟩
    · have restricts := decides_checkRestricts readsAs isNode areDoomed areFound listed
      change ClosesAs _ _ _ (records.cascadeFrom table snapshot CASCADE_LIMIT
        0 ⟨[(table, row)], [homeOf (table, row)]⟩ >>= _)
      rw [isClosure]
      change ClosesAs _ _ _ (checkEach _ closure.rows >>= fun _ => .ok closure.rows)
      rcases restricts with ⟨passed, unrestricted⟩ |
        ⟨error, failed, isRefusal, isRestricted⟩
      · obtain ⟨nodes, beside⟩ := exists_forall₂ areDoomed
        rw [passed]
        refine .doomed _ nodes few unrestricted
          (beside.imp (fun _ _ both => both.2)) ?_ (fun node => ?_)
        · refine pairwise_of_forall₂ ?_ beside (pairwise_map.mp distinct)
          rintro item item' node _ apart ⟨-, itemTracks⟩ ⟨-, itemTracks'⟩ rfl
          exact apart (itemTracks.homeOf.trans itemTracks'.homeOf.symm)
        · constructor
          · intro member
            obtain ⟨_, -, isDoomed, -⟩ := exists_beside_right beside node member
            exact isDoomed
          · intro isDoomed
            obtain ⟨item, member, itemTracks⟩ := areFound node isDoomed
            obtain ⟨node', inNodes, isDoomed', itemTracks'⟩ :=
              exists_beside_left beside item member
            rwa [itemTracks.eq_of_homeOf readsAs itemTracks'
              (isDoomed.stores isNode) (isDoomed'.stores isNode) rfl]
      · rw [failed]
        exact .restricted error few (not_not.mp isRestricted) isRefusal
    · change ClosesAs _ _ _ (records.cascadeFrom table snapshot CASCADE_LIMIT
        0 ⟨[(table, row)], [homeOf (table, row)]⟩ >>= _)
      rw [refused]
      exact .tooLarge tooMany

end RecordTransaction

/--
Whatever references there are between the rows of a consistent store, and in
whatever order they are followed, a deletion takes the least set of rows that
its row's cascades stay in, each once; it is refused when that is too large, and
otherwise exactly when a stored row outside the set, retired or not, restricts
the deletion of one in it.
-/
theorem closesAs_of_built
    {tables : List TableDef}
    (built : ∀ table ∈ tables, ∃ builder : TableBuilder, builder.build = .ok table)
    {records : RecordTransaction}
    (made : Catalog.fromTables tables = .ok records.catalog)
    {snapshot : Snapshot}
    (consistent : (records.catalog.layout
      (Catalog.wellFormed_of_fromTables built made)).Consistent
        (records.catalog.view snapshot.get))
    {rows : TableDef → List Row}
    (reads : ∀ table ∈ records.catalog.tables,
      readTable snapshot table = .ok (rows table))
    {context : SecurityContext} {table : TableDef}
    (inCatalog : table ∈ records.catalog.tables)
    (authorized : ∀ reachable ∈ records.cascadeReachable table,
      records.security.authorize context reachable .delete = .ok ())
    {row stored : Row}
    (isStored : stored ∈ rows table)
    (same : row.Same stored) :
    RecordTransaction.ClosesAs records.catalog rows (table, stored)
      (records.deletionClosure context table row snapshot) :=
  closesAs_deletionClosure
    (fun other isTable => ⟨isTable, consistent, reads other isTable⟩)
    inCatalog isStored same authorized

/--
A deletion that is not refused leaves no reference to a row that it takes: what
references one is taken with it, but for retired rows that would cascade.
-/
theorem references_taken
    {tables : List TableDef}
    (built : ∀ table ∈ tables, ∃ builder : TableBuilder, builder.build = .ok table)
    {records : RecordTransaction}
    (made : Catalog.fromTables tables = .ok records.catalog)
    {snapshot : Snapshot}
    (consistent : (records.catalog.layout
      (Catalog.wellFormed_of_fromTables built made)).Consistent
        (records.catalog.view snapshot.get))
    {rows : TableDef → List Row}
    (reads : ∀ table ∈ records.catalog.tables,
      readTable snapshot table = .ok (rows table))
    {context : SecurityContext} {table : TableDef}
    (inCatalog : table ∈ records.catalog.tables)
    (authorized : ∀ reachable ∈ records.cascadeReachable table,
      records.security.authorize context reachable .delete = .ok ())
    {row stored : Row}
    (isStored : stored ∈ rows table)
    (same : row.Same stored) {found : List Node}
    (closed : records.deletionClosure context table row snapshot = .ok found) :
    ∀ taken ∈ found, ∀ edge ∈ records.catalog.referencing taken.1.id,
      ∀ child ∈ rows edge.1, edge.2.Holds (taken.2.primaryKeyValues taken.1) child →
          (∃ other ∈ found, Tracks other (edge.1, child)) ∨
            edge.2.onDelete = .cascade ∧ ¬edge.1.Live child := by
  intro taken isTaken edge isEdge child inRows isHeld
  have closes := closesAs_deletionClosure
    (fun other isTable => ⟨isTable, consistent, reads other isTable⟩)
    inCatalog isStored same authorized
  rw [closed] at closes
  cases closes with
  | doomed _ nodes _ unrestricted beside _ areDoomed =>
      obtain ⟨parent, inNodes, tracks⟩ := exists_beside_left beside taken isTaken
      have isDoomed := (areDoomed parent).mp inNodes
      have goes : records.catalog.Doomed rows (table, stored)
          (edge.1, child) → ∃ other ∈ found, Tracks other (edge.1, child) :=
        fun isDoomed' => exists_beside_right beside _ ((areDoomed _).mpr isDoomed')
      rw [tracks.1] at isEdge isHeld
      have references (action : ReferentialAction)
          (isAction : edge.2.onDelete = action) :
          records.catalog.References rows action parent (edge.1, child) :=
        ⟨inRows, edge.2, isEdge, isAction,
          isHeld.congr (tracks.2.project parent.1.primaryKey)⟩
      cases isAction : edge.2.onDelete with
      | restrict =>
          refine Or.inl (goes ?_)
          by_contra stays
          exact unrestricted ⟨parent, (edge.1, child), isDoomed,
            references .restrict isAction, stays⟩
      | cascade =>
          by_cases isLive : edge.1.Live child
          · exact Or.inl (goes (isDoomed.tail ⟨references .cascade isAction, isLive⟩))
          · exact Or.inr ⟨rfl, isLive⟩

end

/-! ## Replies -/

/-- Replies to replies, which are kept when they are deleted. -/
def repliesBuilder : TableBuilder where
  id := 1
  name := "replies"
  columns := [
    { name := "id", type := .i64 },
    { name := "answers", type := .i64, nullable := true },
    { name := "retired_at", type := .i64, nullable := true }]
  primaryKey := ["id"]
  foreignKeys := [
    { name := "replies_answers"
      columns := ["answers"]
      parent := 1
      onDelete := .restrict }]
  softDelete := some "retired_at"

/-- The table that the builder makes. -/
def replies : TableDef where
  id := 1
  name := "replies"
  columns := repliesBuilder.columns.map ColumnSpec.toColumn
  primaryKey := [0]
  bodyColumns := [1, 2]
  storedColumns := [1, 2]
  indexes := []
  checks := []
  foreignKeys := [⟨"replies_answers", [1], 1, .restrict⟩]
  tenantColumn := none
  softDelete := some 2
  schemaVersion := 0

theorem built_replies :
    ∀ table ∈ [replies], ∃ builder : TableBuilder, builder.build = .ok table := by
  intro table member
  rw [mem_singleton.mp member]
  exact ⟨repliesBuilder, rfl⟩

section

local instance repliesPlatform : Platform := asciiPlatform

theorem staysValid_replies :
    ∀ table ∈ (⟨[replies]⟩ : Catalog).tables, table.StaysValid := by
  intro table member
  rw [mem_singleton.mp member]
  have wellFormed : replies.WellFormed :=
    TableBuilder.build_wellFormed (show repliesBuilder.build = .ok replies from rfl)
  have allLive : ∀ column ∈ replies.columns, column.isDropped = false := by
    decide
  intro row stamps fills valid
  refine validate_refilled wellFormed ?_ (forall_mem_nil _) valid fills
  intro ordinal column _ found
  exact allLive column (mem_of_getElem? found)

/-- A reply is answered, and the answer is deleted. -/
def replyCalls : List Call := [.write (.plain ⟨[replies]⟩) .superuser replies
      (.keyed (.insert ⟨[.i64 1, .null, .null]⟩)),
    .write (.plain ⟨[replies]⟩) .superuser replies
      (.keyed (.insert ⟨[.i64 2, .i64 1, .null]⟩)),
    .write (.plain ⟨[replies]⟩) .superuser replies (.delete [.i64 2])]

theorem undisturbed_replyCalls :
    LabelledRun.Along Call.step
      (fun state call => call.On ⟨[replies]⟩ ∧ call.Undisturbed state)
      (.begin ∅) replyCalls := by
  have onCatalog : ∀ call ∈ replyCalls, call.On ⟨[replies]⟩ := by
    simp [replyCalls, Call.On, plain]
  have unstamped : replies.SlotsUnstamped := TableDef.slotsUnstamped_of_unmanaged rfl
  refine LabelledRun.along_of_taken (fun count call isCall state taken =>
    ⟨onCatalog call (mem_of_getElem? isCall), ?_⟩)
  obtain ⟨inCalls, rfl⟩ := List.getElem?_eq_some_iff.mp isCall
  clear isCall
  change count < 3 at inCalls
  interval_cases count
  · refine ⟨?_, fun _ => unstamped⟩
    simp [KeyedWrite.rows, Row.Fits, Value.fits]
  · refine ⟨?_, fun _ => unstamped⟩
    simp [KeyedWrite.rows, Row.Fits, Value.fits]
  · refine undisturbed_of_deletionFree ?_
    have free : ((replyCalls.take 2).foldlM Call.step (.begin ∅)).all
        (deletionFree (.plain ⟨[replies]⟩) .superuser replies [.i64 2]) = true := by
      decide
    rw [taken] at free
    exact free

theorem consistent_replies
    {state : RecordState}
    (taken : replyCalls.foldlM Call.step (.begin ∅) = some state) :
    (Catalog.layout ⟨[replies]⟩ (Catalog.wellFormed_of_fromTables
      built_replies rfl)).Consistent (Catalog.view ⟨[replies]⟩ state.transaction.get) :=
  (Catalog.keepsOnly_of_undisturbed _ staysValid_replies undisturbed_replyCalls
    (.of_foldlM taken)).keeps

/-- Whether a reply answers another and is not retired. -/
def answersLive (row : Row) : Bool :=
  (row.get 2).all Value.isNull && !(row.get 1).all Value.isNull

/-- Replies that are read, the first of which has to stay. -/
structure KeptReply (state : RecordState) (rows : List Row) (row : Row) :
    Prop where
  taken : replyCalls.foldlM Call.step (.begin ∅) = some state
  isRead : readTable state.transaction replies = .ok rows
  isFirst : rows.head? = some row
  few : rows.length ≤ 2
  unanswered : rows.any answersLive = false
  refused : ∃ error, RecordTransaction.deletionClosure (.plain ⟨[replies]⟩)
    .superuser replies row state.transaction = .error error

/-- The first reply is not answered by one that is left, and has to stay. -/
def refusedReply : Option Bool := do
  let state ← replyCalls.foldlM Call.step (.begin ∅)
  let rows ← (readTable state.transaction replies).toOption
  let row ← rows.head?
  let closed := RecordTransaction.deletionClosure (.plain ⟨[replies]⟩)
    .superuser replies row state.transaction
  return decide (rows.length ≤ 2) && !rows.any answersLive && closed.toOption.isNone

theorem exists_keptReply :
    ∃ state rows row, KeptReply state rows row := by
  have isRefused : refusedReply = some true := by
    decide
  rw [refusedReply] at isRefused
  obtain ⟨state, taken, isRefused⟩ := Option.bind_eq_some_iff.mp isRefused
  obtain ⟨rows, isRead, isRefused⟩ := Option.bind_eq_some_iff.mp isRefused
  obtain ⟨row, isFirst, isRefused⟩ := Option.bind_eq_some_iff.mp isRefused
  have all := Option.some.inj isRefused
  rw [Bool.and_eq_true, Bool.and_eq_true, Bool.not_eq_true'] at all
  refine ⟨state, rows, row, taken, eq_ok_of_toOption isRead, isFirst,
    of_decide_eq_true all.1.1, all.1.2, ?_⟩
  cases closed : deletionClosure (.plain ⟨[replies]⟩)
      .superuser replies row state.transaction with
  | error refusal => exact ⟨refusal, rfl⟩
  | ok found =>
      rw [closed] at all
      cases all.2

/-- A reply that was answered by a retired one has to stay. -/
theorem not_restricted_by_live :
    ¬∀ (_ : Platform) (tables : List TableDef) (built : ∀ table ∈ tables,
        ∃ builder : TableBuilder, builder.build = .ok table)
      (records : RecordTransaction)
      (made : Catalog.fromTables tables = .ok records.catalog)
      (snapshot : Snapshot),
      (records.catalog.layout (Catalog.wellFormed_of_fromTables built
        made)).Consistent (records.catalog.view snapshot.get) →
      ∀ rows : TableDef → List Row, (∀ table ∈ records.catalog.tables,
        readTable snapshot table = .ok (rows table)) →
      ∀ context, ∀ table ∈ records.catalog.tables,
        (∀ reachable ∈ records.cascadeReachable table,
          records.security.authorize context reachable .delete = .ok ()) →
      ∀ row ∈ rows table, ∀ error,
        records.deletionClosure context table row snapshot = .error error →
        records.catalog.CascadesTooFar rows (table, row) ∨
          ∃ parent child, records.catalog.Doomed rows (table, row) parent ∧
            records.catalog.References rows .restrict parent child ∧
            child.1.Live child.2 ∧
            ¬records.catalog.Doomed rows (table, row) child := by
  intro always
  obtain ⟨state, rows, row, kept⟩ := exists_keptReply
  obtain ⟨error, refused⟩ := kept.refused
  have reads : ∀ table ∈ (⟨[replies]⟩ : Catalog).tables,
      readTable state.transaction table = .ok rows := by
    intro table member
    rw [mem_singleton.mp member]
    exact kept.isRead
  have inCatalog : replies ∈ (⟨[replies]⟩ : Catalog).tables :=
    mem_singleton.mpr rfl
  have isStored := mem_of_head? kept.isFirst
  rcases always repliesPlatform [replies] built_replies (.plain ⟨[replies]⟩)
      rfl state.transaction (consistent_replies kept.taken) (fun _ => rows)
      reads .superuser replies inCatalog (fun _ _ => rfl) row isStored error
      refused with
    ⟨nodes, many, distinct, areDoomed⟩ |
      ⟨parent, child, isDoomed, ⟨inRows, foreignKey, isEdge, -, isHeld⟩, isLive, -⟩
  · have within : nodes ⊆ rows.map (fun row => (replies, row)) := by
      intro node member
      have ⟨isTable, inRows⟩ := (areDoomed node member).stores ⟨inCatalog, isStored⟩
      exact mem_map.mpr ⟨node.2, inRows,
        Prod.ext (mem_singleton.mp isTable).symm rfl⟩
    have fewer := (subperm_of_subset distinct within).length_le
    rw [length_map] at fewer
    exact absurd (Nat.lt_of_lt_of_le many (Nat.le_trans fewer kept.few)) (by decide)
  · have isUnanswered := any_eq_false.mp kept.unanswered child.2 inRows
    have isTable : parent.1 = replies := mem_singleton.mp
      (isDoomed.stores ⟨inCatalog, isStored⟩).1
    obtain ⟨isChild, isForeignKey⟩ : child.1 = replies ∧
        foreignKey = ⟨"replies_answers", [1], 1, .restrict⟩ := by
      rw [isTable] at isEdge
      exact Prod.mk.inj (mem_singleton.mp isEdge)
    have notNull : (child.2.get 1).all Value.isNull = false := by
      rw [isForeignKey, isTable] at isHeld
      obtain ⟨value, isValue, isPresent, -⟩ := isHeld _ (mem_cons_self ..)
      rw [isValue]
      exact isPresent
    rw [isChild] at isLive
    rw [answersLive, isLive 2 rfl, notNull] at isUnanswered
    exact isUnanswered rfl

/-! ## Authors -/

/-- A table whose rows go with the row of another that each of them names. -/
def naming (id parent : TableId) (name : String) : TableBuilder where
  id := id
  name := name
  columns := [
    { name := "id", type := .i64 },
    { name := "of", type := .i64, nullable := true }]
  primaryKey := ["id"]
  foreignKeys := [
    { name := name ++ "_of"
      columns := ["of"]
      parent := parent
      onDelete := .cascade }]

/-- What the builder of such a table makes. -/
def named (id parent : TableId) (name : String) : TableDef where
  id := id
  name := name
  columns := (naming id parent name).columns.map ColumnSpec.toColumn
  primaryKey := [0]
  bodyColumns := [1]
  storedColumns := [1]
  indexes := []
  checks := []
  foreignKeys := [⟨name ++ "_of", [1], parent, .cascade⟩]
  tenantColumn := none
  softDelete := none
  schemaVersion := 0

/-- Authors, each with the article that made them known. -/
def authors : TableDef := named 1 2 "authors"

/-- Articles, each with its author. -/
def articles : TableDef := named 2 1 "articles"

theorem built_authors :
    ∀ table ∈ [authors, articles],
      ∃ builder : TableBuilder, builder.build = .ok table := by
  intro table member
  rcases mem_cons.mp member with rfl | member
  · exact ⟨naming 1 2 "authors", rfl⟩
  · rw [mem_singleton.mp member]
    exact ⟨naming 2 1 "articles", rfl⟩

/-- An author writes an article, which makes a second author known. -/
def authorCalls : List Call :=
  [(authors, ⟨[.i64 1, .null]⟩), (articles, ⟨[.i64 5, .i64 1]⟩),
    (authors, ⟨[.i64 2, .i64 5]⟩)].map (fun (table, row) =>
      .write (.plain ⟨[authors, articles]⟩) .superuser table (.keyed (.insert row)))

/-- The rows of each table after that. -/
def authorRows (table : TableDef) : List Row := if table.id = 1 then
    [⟨[.i64 1, .null]⟩, ⟨[.i64 2, .i64 5]⟩]
  else
    [⟨[.i64 5, .i64 1]⟩]

/-- What goes with the first author. -/
def doomedAuthors : List Node :=
  [(authors, ⟨[.i64 1, .null]⟩), (articles, ⟨[.i64 5, .i64 1]⟩),
    (authors, ⟨[.i64 2, .i64 5]⟩)]

/-- The rows of both tables, and what goes with the first author. -/
def authorDeletion : Option (List Row × List Row × List Node) := do
  let state ← authorCalls.foldlM Call.step (.begin ∅)
  let first ← (readTable state.transaction authors).toOption
  let second ← (readTable state.transaction articles).toOption
  let closed ← (deletionClosure (.plain ⟨[authors, articles]⟩) .superuser
    authors ⟨[.i64 1, .null]⟩ state.transaction).toOption
  return (first, second, closed)

theorem authorDeletion_eq :
    authorDeletion = some (authorRows authors, authorRows articles, doomedAuthors) :=
  rfl

/-- A consistent store of the authors and the articles. -/
structure StoresAuthors (state : RecordState) : Prop where
  taken : authorCalls.foldlM Call.step (.begin ∅) = some state
  consistent : (Catalog.layout ⟨[authors, articles]⟩
    (Catalog.wellFormed_of_fromTables built_authors rfl)).Consistent
      (Catalog.view ⟨[authors, articles]⟩ state.transaction.get)
  reads : ∀ table ∈ [authors, articles],
    readTable state.transaction table = .ok (authorRows table)
  closed : deletionClosure (.plain ⟨[authors, articles]⟩) .superuser authors
    ⟨[.i64 1, .null]⟩ state.transaction = .ok doomedAuthors

theorem exists_storesAuthors :
    ∃ state, StoresAuthors state := by
  have done := authorDeletion_eq
  rw [authorDeletion] at done
  obtain ⟨state, taken, done⟩ := Option.bind_eq_some_iff.mp done
  obtain ⟨first, isFirst, done⟩ := Option.bind_eq_some_iff.mp done
  obtain ⟨second, isSecond, done⟩ := Option.bind_eq_some_iff.mp done
  obtain ⟨closed, isClosed, done⟩ := Option.bind_eq_some_iff.mp done
  simp only [Option.pure_def, Option.some.injEq, Prod.mk.injEq] at done
  obtain ⟨rfl, rfl, rfl⟩ := done
  have unmanaged : Catalog.Unmanaged ⟨[authors, articles]⟩ := by
    intro table member
    rcases mem_cons.mp member with rfl | member
    · exact ⟨rfl, rfl⟩
    · rw [mem_singleton.mp member]
      exact ⟨rfl, rfl⟩
  have names : ∀ call ∈ authorCalls, call.Names ⟨[authors, articles]⟩ := by
    simp [authorCalls, Call.Names, RecordWrite.Named, plain]
  have fits : ∀ call ∈ authorCalls, ∀ row ∈ call.rows, row.Fits := by
    simp [authorCalls, Call.rows, RecordWrite.rows, KeyedWrite.rows, Row.Fits,
      Value.fits]
  refine ⟨state, taken, (Catalog.keepsOnly_of_calls _ unmanaged names fits
    (.of_foldlM taken)).keeps, ?_, eq_ok_of_toOption isClosed⟩
  intro table member
  rcases mem_cons.mp member with rfl | member
  · exact eq_ok_of_toOption isFirst
  · rw [mem_singleton.mp member]
    exact eq_ok_of_toOption isSecond

/-- The article goes with its author, and another author with the article. -/
theorem closesAs_authors :
    ∃ state : RecordState, RecordTransaction.ClosesAs ⟨[authors, articles]⟩ authorRows
        (authors, ⟨[.i64 1, .null]⟩)
        (deletionClosure (.plain ⟨[authors, articles]⟩) .superuser authors
          ⟨[.i64 1, .null]⟩ state.transaction) := by
  obtain ⟨state, stores⟩ := exists_storesAuthors
  exact ⟨state, @closesAs_of_built _ _ built_authors
    (.plain ⟨[authors, articles]⟩) rfl _ stores.consistent _ stores.reads _ _
    mem_cons_self (fun _ _ => rfl) _ _ mem_cons_self (Row.Same.refl _)⟩

/-- Whoever references one of the three rows that go is one of them. -/
theorem references_taken_authors :
    ∃ state : RecordState,
      deletionClosure (.plain ⟨[authors, articles]⟩) .superuser authors
        ⟨[.i64 1, .null]⟩ state.transaction = .ok doomedAuthors ∧
      ∀ taken ∈ doomedAuthors,
        ∀ edge ∈ Catalog.referencing ⟨[authors, articles]⟩ taken.1.id,
          ∀ child ∈ authorRows edge.1,
            edge.2.Holds (taken.2.primaryKeyValues taken.1) child →
              (∃ other ∈ doomedAuthors, Tracks other (edge.1, child)) ∨
                edge.2.onDelete = .cascade ∧ ¬edge.1.Live child := by
  obtain ⟨state, stores⟩ := exists_storesAuthors
  exact ⟨state, stores.closed, @references_taken _ _ built_authors
    (.plain ⟨[authors, articles]⟩) rfl _ stores.consistent _ stores.reads _ _
    mem_cons_self (fun _ _ => rfl) _ _ mem_cons_self (Row.Same.refl _) _ stores.closed⟩

end

end SlateOrm
