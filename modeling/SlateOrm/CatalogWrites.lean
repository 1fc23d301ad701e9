import SlateOrm.CatalogStore
import SlateOrm.LostUpdates

namespace SlateOrm

open List RecordTransaction RecordState

/-!
# The keys that writes touch

A record transaction over a catalog writes rows and entries of the catalog's
tables and indexes.  Whatever it answers, it leaves every other key as it was.
-/

/-! ## Operations that touch some keys only -/

namespace Write

variable {α β : Type}

/-- Whatever an operation answers, it has changed keys of a kind alone. -/
structure Touches (owns : Bytes → Prop) (operation : Write α) : Prop where
  changes : ∀ state, ∃ changes : List Change,
    (∀ change ∈ changes, owns change.1) ∧ (operation.run state).2.transaction =
        (state.changed changes).transaction

namespace Touches

variable {owns : Bytes → Prop}

/-- A value changes no key. -/
theorem pure (value : α) : Touches owns (pure value : Write α) :=
  ⟨fun _ => ⟨[], fun _ member => absurd member not_mem_nil, rfl⟩⟩

/-- An outcome that is known changes no key. -/
theorem lift (outcome : Except KernelError α) :
    Touches owns (lift outcome) :=
  ⟨fun _ => ⟨[], fun _ member => absurd member not_mem_nil, rfl⟩⟩

/-- A read changes no key. -/
theorem reading (read : Snapshot → Except KernelError α) :
    Touches owns (reading read) :=
  ⟨fun _ => ⟨[], fun _ member => absurd member not_mem_nil, rfl⟩⟩

/-- A put changes its own key. -/
theorem put
    {key : Bytes} (owned : owns key) (value : Bytes) :
    Touches owns (put key value) := by
  refine ⟨fun _ => ⟨[(key, some value)], ?_, rfl⟩⟩
  intro change member
  rw [mem_singleton.mp member]
  exact owned

/-- A delete changes its own key. -/
theorem delete
    {key : Bytes} (owned : owns key) :
    Touches owns (delete key) := by
  refine ⟨fun _ => ⟨[(key, none)], ?_, rfl⟩⟩
  intro change member
  rw [mem_singleton.mp member]
  exact owned

/-- What follows an operation changes keys of the kind after it. -/
theorem bind
    {first : Write α} {next : α → Write β} (firstTouches : Touches owns first)
    (nextTouches : ∀ state value, (first.run state).1 = .ok value →
      Touches owns (next value)) :
    Touches owns (first >>= next) := by
  refine ⟨fun state => ?_⟩
  obtain ⟨changes, owned, buffered⟩ := firstTouches.changes state
  rw [run_bind]
  cases ran : first.run state with
  | mk outcome between =>
      rw [ran] at buffered
      cases outcome with
      | error error => exact ⟨changes, owned, buffered⟩
      | ok value =>
          have answered : (first.run state).1 = .ok value := congrArg Prod.fst ran
          obtain ⟨more, ownedMore, bufferedMore⟩ :=
            (nextTouches state value answered).changes between
          refine ⟨changes ++ more, ?_, bufferedMore.trans ?_⟩
          · intro change member
            rcases mem_append.mp member with earlier | later
            · exact owned change earlier
            · exact ownedMore change later
          · rw [← changed_changed]
            simp only [changed] at buffered ⊢
            rw [buffered]

/-- A loop changes what its rounds do. -/
theorem forEach
    {operation : α → Write Unit} {values : List α}
    (touches : ∀ value ∈ values, Touches owns (operation value)) :
    Touches owns (forEach operation values) := by
  induction values with
  | nil => exact pure ()
  | cons value rest ih =>
      refine bind (touches value (mem_cons_self ..)) (fun _ _ _ => ?_)
      exact ih (fun other member => touches other (mem_cons_of_mem _ member))

theorem collect
    {operation : α → Write β}
    (touches : ∀ value, Touches owns (operation value))
    (values : List α) :
    Touches owns (collect operation values) := by
  induction values with
  | nil => exact pure []
  | cons value rest ih =>
      exact bind (touches value) (fun _ _ _ => bind ih (fun _ _ _ => pure _))

/-- A key of another kind reads as it did before. -/
theorem get_of_not_owns
    {operation : Write α} (touches : Touches owns operation) {key : Bytes}
    (notOwned : ¬owns key)
    (state : RecordState) :
    (operation.run state).2.transaction.get key = state.transaction.get key := by
  obtain ⟨changes, owned, buffered⟩ := touches.changes state
  rw [buffered]
  exact get_changed_of_absent (fun change member sameKey =>
    notOwned (sameKey ▸ owned change member))

end Touches

/-! ## Operations that keep an invariant -/

/--
Whatever an operation answers, it keeps an invariant, and what it returns has a
property.
-/
def Upholds (holds : RecordState → Prop) (operation : Write α)
    (ensures : α → Prop) : Prop :=
  ∀ state, holds state → holds (operation.run state).2 ∧
      ∀ value, (operation.run state).1 = .ok value → ensures value

namespace Upholds

variable
  {holds : RecordState → Prop}
  {ensures : α → Prop}

/-- A value that has the property keeps every state. -/
theorem pure
    {value : α} (ensured : ensures value) :
    Upholds holds (pure value : Write α) ensures := by
  refine fun state before => ⟨before, fun result answered => ?_⟩
  cases answered
  exact ensured

theorem lift
    {outcome : Except KernelError α}
    (ensured : ∀ value, outcome = .ok value → ensures value) :
    Upholds holds (lift outcome) ensures :=
  fun _ before => ⟨before, ensured⟩

theorem reading
    {read : Snapshot → Except KernelError α}
    (ensured : ∀ state, holds state →
      ∀ value, read state.transaction = .ok value → ensures value) :
    Upholds holds (reading read) ensures :=
  fun state before => ⟨before, ensured state before⟩

/-- What follows an operation may rely on its answer. -/
theorem bind
    {between : α → Prop} {ensures : β → Prop} {first : Write α}
    {next : α → Write β} (firstUpholds : Upholds holds first between)
    (nextUpholds : ∀ value, between value → Upholds holds (next value) ensures) :
    Upholds holds (first >>= next) ensures := by
  intro state before
  obtain ⟨kept, ensured⟩ := firstUpholds state before
  rw [run_bind]
  cases ran : first.run state with
  | mk outcome after =>
      rw [ran] at kept ensured
      cases outcome with
      | error error =>
          refine ⟨kept, fun value answered => ?_⟩
          cases answered
      | ok value => exact nextUpholds value (ensured value rfl) after kept

/-- What follows an operation may leave its answer aside. -/
theorem andThen
    {ensures : β → Prop} {first : Write α} {next : α → Write β}
    (firstUpholds : Upholds holds first (fun _ => True))
    (nextUpholds : ∀ value, Upholds holds (next value) ensures) :
    Upholds holds (first >>= next) ensures :=
  bind firstUpholds (fun value _ => nextUpholds value)

/-- A loop keeps the invariant if its rounds do. -/
theorem forEach
    {operation : α → Write Unit} {values : List α}
    (each : ∀ value ∈ values, Upholds holds (operation value) (fun _ => True)) :
    Upholds holds (forEach operation values) (fun _ => True) := by
  induction values with
  | nil => exact pure trivial
  | cons value rest ih =>
      refine andThen (each value (mem_cons_self ..)) (fun _ => ?_)
      exact ih (fun other member => each other (mem_cons_of_mem _ member))

theorem collect
    {operation : α → Write β} {values : List α}
    (each : ∀ value ∈ values, Upholds holds (operation value) (fun _ => True)) :
    Upholds holds (collect operation values) (fun _ => True) := by
  induction values with
  | nil => exact pure trivial
  | cons value rest ih =>
      refine andThen (each value (mem_cons_self ..)) (fun _ => andThen
        (ih (fun other member => each other (mem_cons_of_mem _ member))) (fun _ => ?_))
      exact pure trivial

end Upholds

end Write

/-! ## The writes of a catalog -/

namespace RecordTransaction

open Write

variable [Platform]

variable
  {catalog : Catalog}
  {table : TableDef}

/-- The entries of an index are of the catalog that declares it. -/
theorem touches_writeIndex
    (inCatalog : table ∈ catalog.tables)
    {index : IndexDef}
    (declared : index ∈ table.indexes)
    (row : Row) (previous : Option Row) (verifyUnique : Bool) :
    Touches catalog.Owns (writeIndex table row previous verifyUnique index) := by
  refine Touches.bind (Touches.forEach (fun old member => ?_))
    (fun _ _ _ => Touches.forEach (fun new member => ?_))
  · split
    · exact Touches.pure ()
    · exact Touches.delete (Catalog.owns_of_ofIndex inCatalog declared
        (ofIndex_of_mem_previousEntries member))
  · have owned := Catalog.owns_of_ofIndex inCatalog declared
      (ofIndex_of_mem_admittedEntries member)
    split
    · exact Touches.pure ()
    · split
      · exact Touches.bind (Touches.reading _) (fun _ _ _ => Touches.put owned _)
      · exact Touches.bind (Touches.pure ()) (fun _ _ _ => Touches.put owned _)

omit [Platform] in
theorem touches_now
    (records : RecordTransaction) (owns : Bytes → Prop) :
    Touches owns records.now :=
  ⟨fun _ => ⟨[], fun _ member => absurd member not_mem_nil, rfl⟩⟩

section

variable
  (inCatalog : table ∈ catalog.tables)

include inCatalog

/-- A row of a table is written under keys of its catalog. -/
theorem touches_writeRowWith
    (records : RecordTransaction) (row : Row) (previous : Option Row)
    (verifyUnique : Bool) :
    Touches catalog.Owns (records.writeRowWith table row previous verifyUnique) := by
  refine Touches.bind ?_ (fun _ row _ => Touches.bind (Touches.forEach
    (fun index declared => touches_writeIndex inCatalog declared row previous
    verifyUnique)) (fun _ _ _ => Touches.put (Catalog.owns_rowKey inCatalog _) _))
  rw [stamp]
  split
  · exact Touches.bind (records.touches_now _) (fun _ _ _ => Touches.pure _)
  · exact Touches.pure row

/-- Rows of a table are written under keys of their catalog. -/
theorem touches_writeMany
    (records : RecordTransaction) (context : SecurityContext) (rows : List Row)
    (mode : BulkMode) :
    Touches catalog.Owns (records.writeMany context table rows mode) := by
  rw [writeMany]
  split
  · exact Touches.pure ()
  · exact Touches.bind (Touches.reading _) (fun _ _ _ =>
      Touches.forEach (fun _ _ => touches_writeRowWith inCatalog ..))

/-- A row of a table is erased under keys of its catalog. -/
theorem touches_eraseRow
    (row : Row) :
    Touches catalog.Owns (eraseRow table row) := by
  refine Touches.bind (Touches.forEach (fun index declared =>
    Touches.forEach (fun entry member => ?_)))
    (fun _ _ _ => Touches.delete (Catalog.owns_rowKey inCatalog _))
  exact Touches.delete (Catalog.owns_of_ofIndex inCatalog declared
    (ofIndex_of_mem_admittedEntries member))

/-- A row of a table is removed under keys of its catalog. -/
theorem touches_removeRow
    (records : RecordTransaction) (row : Row) :
    Touches catalog.Owns (records.removeRow table row) := by
  rw [removeRow]
  split
  · exact touches_eraseRow inCatalog row
  · refine Touches.bind (records.touches_now _) (fun _ _ _ => ?_)
    split
    · exact touches_writeRowWith inCatalog ..
    · exact Touches.lift _

end

/-- A deletion through tables of a catalog stays within it. -/
theorem touches_removeRows
    (records : RecordTransaction) {doomed : List (TableDef × Row)}
    (inCatalog : ∀ pair ∈ doomed, pair.1 ∈ catalog.tables) :
    Touches catalog.Owns (records.removeRows doomed) :=
  Touches.forEach (fun pair member =>
    touches_removeRow (inCatalog pair member) records pair.2)

/-- What a deletion takes with it is of tables of the catalog. -/
theorem tables_of_deletionClosure
    {records : RecordTransaction}
    (isCatalog : records.catalog = catalog)
    (inCatalog : table ∈ catalog.tables)
    {context : SecurityContext} {row : Row} {snapshot : Snapshot}
    {doomed : List (TableDef × Row)}
    (closed : records.deletionClosure context table row snapshot = .ok doomed) :
    ∀ pair ∈ doomed, pair.1 ∈ catalog.tables := by
  let holds : TableDef → Row → Prop := fun owner _ => owner ∈ catalog.tables
  have isRoot : holds table row := inCatalog
  have children : ∀ child foreignKey parentKey rows, child ∈ records.catalog.tables →
      records.referencingRows .superuser child foreignKey parentKey .hidden
        snapshot = .ok rows →
      ∀ row ∈ rows, holds child row := by
    intro child _ _ _ isChild _ _ _
    rw [isCatalog] at isChild
    exact isChild
  exact deletionClosure_forall children isRoot closed

end RecordTransaction

namespace RecordWrite

open Write

variable [Platform]

/-- Every write of a record transaction touches keys of its catalog alone. -/
theorem touches
    {records : RecordTransaction} (context : SecurityContext) {table : TableDef}
    (inCatalog : table ∈ records.catalog.tables)
    (write : RecordWrite) :
    Touches records.catalog.Owns (write.operation records context table) := by
  have removes {row : Row} {snapshot : Snapshot} {doomed : List (TableDef × Row)}
      (closed : records.deletionClosure context table row snapshot = .ok doomed) :
      Touches records.catalog.Owns (records.removeRows doomed) :=
    records.touches_removeRows (tables_of_deletionClosure rfl inCatalog closed)
  cases write with
  | keyed write =>
      cases write with
      | insert row
      | update row
      | upsert row
      | updateIfUnchanged row expected =>
          exact Touches.bind (Touches.reading _) (fun _ _ _ =>
            touches_writeRowWith inCatalog ..)
      | insertMany rows
      | upsertMany rows
      | updateMany rows => exact touches_writeMany inCatalog ..
  | predicate write atMost =>
      refine Touches.bind ?_ (fun _ _ _ => Touches.pure ())
      cases write with
      | deleteWhere filter =>
          refine Touches.bind (Touches.reading _) (fun _ _ _ =>
            Touches.collect (fun row => ?_) _)
          refine Touches.bind (Touches.reading _) (fun state doomed closed => ?_)
          exact Touches.bind (removes closed) (fun _ _ _ => Touches.pure _)
      | updateWhere filter assignments =>
          refine Touches.bind (Touches.reading _) (fun _ _ _ =>
            Touches.collect (fun row => ?_) _)
          exact Touches.bind (Touches.reading _) (fun _ _ _ => Touches.bind
            (touches_writeRowWith inCatalog ..) (fun _ _ _ => Touches.pure _))
  | delete primaryKey =>
      refine Touches.bind (Touches.bind (Touches.reading _)
        (fun state found checked => ?_)) (fun _ _ _ => Touches.pure ())
      cases found with
      | none => exact Touches.pure false
      | some doomed =>
          replace checked := ok_of_bind checked
          obtain ⟨existing, _, checked⟩ := bind_eq_ok.mp checked
          cases existing with
          | none => cases checked
          | some row =>
              obtain ⟨rows, closed, checked⟩ := bind_eq_ok.mp checked
              cases checked
              exact Touches.bind (removes closed) (fun _ _ _ => Touches.pure true)
  | deleteIfUnchanged primaryKey expected =>
      refine Touches.bind (Touches.reading _) (fun state doomed checked => ?_)
      obtain ⟨_, row, _, _, closed⟩ := checkDeleteIfUnchanged_spec checked
      exact removes closed
  | purgeDeleted before atMost =>
      refine Touches.bind ?_ (fun _ _ _ => Touches.pure ())
      rw [RecordTransaction.purgeDeleted]
      split
      · exact Touches.lift _
      · exact Touches.bind (Touches.lift _) (fun _ _ _ => Touches.bind
          (Touches.reading _) (fun _ _ _ => Touches.bind (Touches.forEach
          (fun _ _ => touches_eraseRow inCatalog _)) (fun _ _ _ => Touches.pure _)))

end RecordWrite

end SlateOrm
