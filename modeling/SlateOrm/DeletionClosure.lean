import SlateOrm.RecordDelete
import SlateOrm.ExecutorRows

namespace SlateOrm

open List

/-!
# What a deletion consists of

The rows that a deletion takes with it are the one it is about and rows that a
read of a referencing table returned.  Whatever holds of those holds of the
whole deletion.
-/

/-- What each round keeps holds after a loop that is not refused. -/
theorem foldlM_invariant
    {ε α β : Type} (holds : β → Prop) {step : β → α → Except ε β}
    {values : List α} {start result : β}
    (keeps : ∀ value ∈ values, ∀ before after,
      holds before → step before value = .ok after → holds after)
    (first : holds start)
    (folded : values.foldlM step start = .ok result) :
    holds result := by
  induction values generalizing start with
  | nil =>
      cases folded
      exact first
  | cons value rest ih =>
      rw [foldlM_cons] at folded
      obtain ⟨between, stepped, folded⟩ := bind_eq_ok.mp folded
      exact ih (fun other member => keeps other (mem_cons_of_mem _ member))
        (keeps value (mem_cons_self ..) start between first stepped) folded

/-- An edge to a parent is a foreign key that a table declares. -/
theorem Catalog.mem_of_referencing
    {catalog : Catalog} {parent : TableId} {edge : TableDef × ForeignKeyDef}
    (member : edge ∈ catalog.referencing parent) :
    edge.1 ∈ catalog.tables ∧ edge.2 ∈ edge.1.foreignKeys ∧ edge.2.parent = parent := by
  obtain ⟨table, inCatalog, inEdges⟩ := mem_flatMap.mp member
  obtain ⟨key, inKeys, rfl⟩ := mem_map.mp inEdges
  obtain ⟨inForeignKeys, isParent⟩ := mem_filter.mp inKeys
  exact ⟨inCatalog, inForeignKeys, eq_of_beq isParent⟩

namespace RecordTransaction

/-- The key of a row of a deletion. -/
def homeOf (pair : TableDef × Row) : Bytes :=
  Keys.rowKey pair.1 (pair.2.primaryKeyValues pair.1)

variable [Platform]

omit [Platform] in
/-- A row is scheduled once, at the end of the rows. -/
theorem schedule_cases
    {root child : TableDef} {closure after : Closure} {row : Row}
    (scheduled : schedule root child closure row = .ok after) :
    after = closure ∨ (homeOf (child, row) ∉ closure.scheduled ∧
        after = ⟨closure.rows ++ [(child, row)],
          homeOf (child, row) :: closure.scheduled⟩) := by
  rw [schedule] at scheduled
  split at scheduled
  · cases scheduled
    exact Or.inl rfl
  · next isNew =>
      split at scheduled
      · cases scheduled
      · cases scheduled
        exact Or.inr ⟨by simpa [homeOf] using isNew, rfl⟩

section

variable
  {records : RecordTransaction}
  {snapshot : Snapshot}
  {root : TableDef}
  {holds : Closure → Prop}
  (keeps : ∀ child foreignKey parentKey rows, child ∈ records.catalog.tables →
    records.referencingRows .superuser child foreignKey parentKey .hidden
      snapshot = .ok rows →
    ∀ row ∈ rows, ∀ before after, holds before →
      schedule root child before row = .ok after → holds after)

include keeps

variable {closure after : Closure}

/-- What every scheduling keeps holds after an edge is followed. -/
theorem cascadeThrough_invariant
    {parent : TableId} {parentKey : List Value}
    {edge : TableDef × ForeignKeyDef}
    (isEdge : edge ∈ records.catalog.referencing parent)
    (before : holds closure)
    (followed : records.cascadeThrough root parentKey snapshot closure edge =
      .ok after) :
    holds after := by
  rw [cascadeThrough] at followed
  split at followed
  · cases followed
    exact before
  · obtain ⟨found, read, followed⟩ := bind_eq_ok.mp followed
    exact foldlM_invariant holds (keeps edge.1 edge.2 parentKey found
      (Catalog.mem_of_referencing isEdge).1 read) before followed

/-- It holds after any rounds of the walk, -/
theorem cascadeFrom_invariant
    {fuel position : Nat} (before : holds closure)
    (followed : records.cascadeFrom root snapshot fuel position closure = .ok after) :
    holds after := by
  induction fuel generalizing position closure with
  | zero =>
      cases followed
      exact before
  | succ fuel ih =>
      rw [cascadeFrom] at followed
      split at followed
      · cases followed
        exact before
      · next parent row _ =>
          obtain ⟨between, folded, followed⟩ := bind_eq_ok.mp followed
          refine ih ?_ followed
          exact foldlM_invariant holds (fun edge isEdge before after all stepped =>
            cascadeThrough_invariant keeps isEdge all stepped) before folded

/-- and of the rows that are deleted. -/
theorem deletionClosure_invariant
    {context : SecurityContext} {row : Row} {doomed : List (TableDef × Row)}
    (isRoot : holds ⟨[(root, row)], [homeOf (root, row)]⟩)
    (closed : records.deletionClosure context root row snapshot = .ok doomed) :
    ∃ closure, holds closure ∧ closure.rows = doomed := by
  rw [deletionClosure] at closed
  split at closed
  · cases closed
    exact ⟨_, isRoot, rfl⟩
  · replace closed := ok_of_bind closed
    obtain ⟨closure, followed, closed⟩ := bind_eq_ok.mp closed
    replace closed := ok_of_bind closed
    cases closed
    exact ⟨closure, cascadeFrom_invariant keeps isRoot followed, rfl⟩

end

variable {doomed : List (TableDef × Row)} {records : RecordTransaction}
  {context : SecurityContext} {snapshot : Snapshot} {table : TableDef}
  {row : Row}

/-- What holds of the root and of every referencing row holds of all that goes. -/
theorem deletionClosure_forall
    {holds : TableDef → Row → Prop}
    (children : ∀ child foreignKey parentKey rows, child ∈ records.catalog.tables →
      records.referencingRows .superuser child foreignKey parentKey .hidden
        snapshot = .ok rows →
      ∀ row ∈ rows, holds child row)
    (isRoot : holds table row)
    (closed : records.deletionClosure context table row snapshot = .ok doomed) :
    ∀ pair ∈ doomed, holds pair.1 pair.2 := by
  have all : ∃ closure : Closure, (∀ pair ∈ closure.rows, holds pair.1 pair.2) ∧
        closure.rows = doomed := by
    refine deletionClosure_invariant ?_ ?_ closed
    · intro child foreignKey parentKey rows inCatalog read row member before
        after holdsBefore scheduled
      rcases schedule_cases scheduled with rfl | ⟨_, rfl⟩
      · exact holdsBefore
      · intro pair inRows
        rcases mem_append.mp inRows with older | isLast
        · exact holdsBefore pair older
        · rw [mem_singleton.mp isLast]
          exact children child foreignKey parentKey rows inCatalog read row member
    · intro pair member
      rw [mem_singleton.mp member]
      exact isRoot
  obtain ⟨closure, holdsAll, rfl⟩ := all
  exact holdsAll

/-- A deletion takes the row that it is asked for. -/
theorem root_mem_deletionClosure
    (closed : records.deletionClosure context table row snapshot = .ok doomed) :
    (table, row) ∈ doomed := by
  have kept : ∃ closure : Closure,
      (table, row) ∈ closure.rows ∧ closure.rows = doomed := by
    refine deletionClosure_invariant ?_ (mem_singleton.mpr rfl) closed
    intro child _ _ _ _ _ found _ before after isIn scheduled
    rcases schedule_cases scheduled with rfl | ⟨_, rfl⟩
    · exact isIn
    · exact mem_append_left _ isIn
  obtain ⟨closure, isIn, rfl⟩ := kept
  exact isIn

/-- A deletion takes each row once. -/
theorem nodup_deletionClosure
    (closed : records.deletionClosure context table row snapshot = .ok doomed) :
    (doomed.map homeOf).Nodup := by
  have distinct : ∃ closure : Closure, ((closure.rows.map homeOf).Nodup ∧
        ∀ pair ∈ closure.rows, homeOf pair ∈ closure.scheduled) ∧
        closure.rows = doomed := by
    refine deletionClosure_invariant ?_ ?_ closed
    · rintro child _ _ _ _ _ found _ before after ⟨nodup, listed⟩ scheduled
      rcases schedule_cases scheduled with rfl | ⟨isNew, rfl⟩
      · exact ⟨nodup, listed⟩
      · refine ⟨?_, ?_⟩
        · rw [map_append, nodup_append]
          refine ⟨nodup, nodup_singleton _, ?_⟩
          rintro key isOld _ isLast rfl
          obtain ⟨pair, member, rfl⟩ := mem_map.mp isOld
          have sameHome : homeOf pair = homeOf (child, found) := mem_singleton.mp isLast
          exact isNew (sameHome ▸ listed pair member)
        · intro pair member
          rcases mem_append.mp member with older | isLast
          · exact mem_cons_of_mem _ (listed pair older)
          · rw [mem_singleton.mp isLast]
            exact mem_cons_self ..
    · refine ⟨nodup_singleton _, ?_⟩
      intro pair member
      rw [mem_singleton.mp member]
      exact mem_singleton.mpr rfl
  obtain ⟨closure, ⟨nodup, _⟩, rfl⟩ := distinct
  exact nodup

end RecordTransaction

end SlateOrm
