import SlateOrm.DeletionGraph

namespace SlateOrm

open List

/-!
# Grants that a deletion takes

Which tables a deletion may reach is found from the catalog alone, before a row
is read.  These are the tables that cascading foreign keys lead to, each once,
and a deletion takes rows of no other table.
-/

namespace Catalog

/-- A table whose rows go with those of another. -/
def CascadesTo (catalog : Catalog) (parent child : TableDef) : Prop :=
  ∃ foreignKey, (child, foreignKey) ∈ catalog.referencing parent.id ∧
    foreignKey.onDelete = .cascade

/-- The tables whose rows may go with those of a table. -/
def Reaches (catalog : Catalog) : TableDef → TableDef → Prop :=
  Relation.ReflTransGen catalog.CascadesTo

/-- Tables found so far, and those whose references are still to be followed. -/
structure Swept (catalog : Catalog) (root : TableDef)
    (pending seen : List TableId) (out : List TableDef) : Prop where
  listed : seen = (root :: out).map TableDef.id
  nodup : seen.Nodup
  waiting : pending ⊆ seen
  reached : ∀ table ∈ out, catalog.Reaches root table ∧ table ∈ catalog.tables
  closed : ∀ parent ∈ root :: out, parent.id ∉ pending →
    ∀ child, catalog.CascadesTo parent child → child.id ∈ seen

/-- Find the table of an edge, unless it was found. -/
def sweep (swept : List TableId × List TableDef)
    (edge : TableDef × ForeignKeyDef) : List TableId × List TableDef :=
  if edge.2.onDelete ≠ .cascade ∨ edge.1.id ∈ swept.1 then
    swept
  else
    (swept.1 ++ [edge.1.id], swept.2 ++ [edge.1])

theorem foldl_sweep
    (edges : List (TableDef × ForeignKeyDef)) {seen : List TableId}
    (nodup : seen.Nodup) (found : List TableDef) :
    ∃ more, edges.foldl sweep (seen, found) =
        (seen ++ more.map TableDef.id, found ++ more) ∧
      (seen ++ more.map TableDef.id).Nodup ∧
      (∀ child ∈ more, ∃ foreignKey, (child, foreignKey) ∈ edges ∧
        foreignKey.onDelete = .cascade) ∧
      ∀ edge ∈ edges, edge.2.onDelete = .cascade →
        edge.1.id ∈ seen ++ more.map TableDef.id := by
  induction edges generalizing seen found with
  | nil => refine ⟨[], by simp, by simpa using nodup, ?_, ?_⟩ <;> simp
  | cons edge rest ih =>
      rw [foldl_cons, sweep]
      split
      · next isSkipped =>
          obtain ⟨more, folded, distinct, sound, complete⟩ := ih nodup found
          refine ⟨more, folded, distinct, ?_, ?_⟩
          · intro child member
            obtain ⟨foreignKey, isEdge, isCascade⟩ := sound child member
            exact ⟨foreignKey, mem_cons_of_mem _ isEdge, isCascade⟩
          · intro other member isCascade
            rcases mem_cons.mp member with rfl | inRest
            · refine mem_append_left _ (isSkipped.resolve_left ?_)
              exact not_not.mpr isCascade
            · exact complete other inRest isCascade
      · next isFound =>
          obtain ⟨isCascade, isNew⟩ := not_or.mp isFound
          have nodup' : (seen ++ [edge.1.id]).Nodup := by
            rw [← concat_eq_append]
            exact nodup.concat isNew
          obtain ⟨more, folded, distinct, sound, complete⟩ :=
            ih nodup' (found ++ [edge.1])
          rw [append_assoc, append_assoc] at folded
          rw [append_assoc] at distinct complete
          refine ⟨edge.1 :: more, folded, distinct, ?_, ?_⟩
          · intro child member
            rcases mem_cons.mp member with rfl | inMore
            · exact ⟨edge.2, mem_cons_self .., not_not.mp isCascade⟩
            · obtain ⟨foreignKey, isEdge, isCascade⟩ := sound child inMore
              exact ⟨foreignKey, mem_cons_of_mem _ isEdge, isCascade⟩
          · intro other member isCascade
            rcases mem_cons.mp member with rfl | inRest
            · exact mem_append_right _ (mem_cons_self ..)
            · exact complete other inRest isCascade

/-- To follow the references to a table keeps what was found. -/
theorem Swept.step
    {catalog : Catalog} {root : TableDef} {parent : TableId}
    {pending seen : List TableId} {out : List TableDef}
    (swept : catalog.Swept root (parent :: pending) seen out) :
    ∃ more, (catalog.referencing parent).foldl sweep (seen, []) =
        (seen ++ more.map TableDef.id, more) ∧
      catalog.Swept root (pending ++ more.map TableDef.id)
        (seen ++ more.map TableDef.id) (out ++ more) := by
  obtain ⟨more, folded, distinct, sound, complete⟩ :=
    foldl_sweep (catalog.referencing parent) swept.nodup []
  obtain ⟨isWaiting, waiting⟩ := cons_subset.mp swept.waiting
  refine ⟨more, folded, ?_, distinct, ?_, ?_, ?_⟩
  · rw [swept.listed, ← map_append]
    rfl
  · exact append_subset.mpr ⟨subset_append_of_subset_left _ waiting,
      subset_append_right ..⟩
  · intro table member
    rcases mem_append.mp member with isOld | isNew
    · exact swept.reached table isOld
    · obtain ⟨foreignKey, isEdge, isCascade⟩ := sound table isNew
      obtain ⟨source, isSource, rfl⟩ : ∃ source ∈ root :: out, source.id = parent := by
        rw [swept.listed] at isWaiting
        exact mem_map.mp isWaiting
      have isReached : catalog.Reaches root source := by
        rcases mem_cons.mp isSource with rfl | isOld
        · exact .refl
        · exact (swept.reached source isOld).1
      exact ⟨isReached.tail ⟨foreignKey, isEdge, isCascade⟩,
        (mem_of_referencing isEdge).1⟩
  · intro source member isDone child cascades
    have notNew : source.id ∉ more.map TableDef.id :=
      fun isNew => isDone (mem_append_right _ isNew)
    by_cases isParent : source.id = parent
    · obtain ⟨foreignKey, isEdge, isCascade⟩ := cascades
      exact complete _ (isParent ▸ isEdge) isCascade
    · refine mem_append_left _ (swept.closed source ?_ ?_ child cascades)
      · rcases mem_append.mp (cons_append ▸ member) with isOld | isNew
        · exact isOld
        · exact absurd (mem_map_of_mem isNew) notNew
      · intro isPending
        rcases mem_cons.mp isPending with same | isPending
        · exact isParent same
        · exact isDone (mem_append_left _ isPending)

end Catalog

namespace RecordTransaction

variable
  {records : RecordTransaction}

/-- Every table that cascading references lead to is found, and once. -/
theorem cascadeReachableFrom_spec
    {root : TableDef} {fuel : Nat} {pending seen : List TableId}
    {out : List TableDef} (swept : records.catalog.Swept root pending seen out)
    (enough : records.catalog.tables.length + 1 + pending.length ≤ fuel + seen.length) :
    (∀ extra, records.cascadeReachableFrom (fuel + extra) pending seen out =
        records.cascadeReachableFrom fuel pending seen out) ∧
      ∃ seen', records.catalog.Swept root [] seen'
        (records.cascadeReachableFrom fuel pending seen out) := by
  induction fuel generalizing pending seen out with
  | zero =>
      have within : seen ⊆ root.id :: records.catalog.tables.map TableDef.id := by
        rw [swept.listed, map_cons]
        exact cons_subset_cons _ (map_subset _
          (fun table member => (swept.reached table member).2))
      have few := (subperm_of_subset swept.nodup within).length_le
      rw [length_cons, length_map] at few
      obtain rfl : pending = [] := length_eq_zero_iff.mp (by omega)
      exact ⟨fun extra => by cases extra <;> rfl, seen, swept⟩
  | succ fuel ih =>
      cases pending with
      | nil => exact ⟨fun extra => by rw [Nat.add_right_comm]; rfl, seen, swept⟩
      | cons parent pending =>
          obtain ⟨more, folded, swept'⟩ := swept.step
          have isNext (fuel : Nat) : records.cascadeReachableFrom (fuel + 1)
              (parent :: pending) seen out =
              records.cascadeReachableFrom fuel
                (pending ++ ((records.catalog.referencing parent).foldl
                  Catalog.sweep (seen, [])).2.map TableDef.id)
                ((records.catalog.referencing parent).foldl Catalog.sweep (seen, [])).1
                (out ++ ((records.catalog.referencing parent).foldl
                  Catalog.sweep (seen, [])).2) :=
            rfl
          simp only [folded] at isNext
          have ends := ih swept' (by
            simp only [length_append, length_map, length_cons] at enough ⊢
            omega)
          rw [isNext]
          refine ⟨fun extra => ?_, ends.2⟩
          rw [Nat.add_right_comm, isNext]
          exact ends.1 extra

theorem swept_cascadeReachable
    (root : TableDef) :
    (∀ extra, records.cascadeReachableFrom
        (records.catalog.tables.length + 1 + extra) [root.id] [root.id] [] =
          records.cascadeReachable root) ∧
      ∃ seen, records.catalog.Swept root [] seen (records.cascadeReachable root) := by
  refine cascadeReachableFrom_spec ⟨rfl, nodup_singleton _, Subset.refl _, nofun,
    ?_⟩ (Nat.le_refl _)
  intro parent isRoot notPending
  rw [mem_singleton.mp isRoot] at notPending
  exact absurd (mem_cons_self ..) notPending

/-- The tables that are found are those that cascades lead to. -/
theorem mem_cascadeReachable
    (wellFormed : records.catalog.WellFormed)
    {root : TableDef}
    (inCatalog : root ∈ records.catalog.tables)
    {table : TableDef} :
    table ∈ root :: records.cascadeReachable root ↔
      records.catalog.Reaches root table := by
  obtain ⟨_, seen, swept⟩ := swept_cascadeReachable root
  constructor
  · intro member
    rcases mem_cons.mp member with rfl | isFound
    · exact .refl
    · exact (swept.reached table isFound).1
  · intro isReached
    induction isReached with
    | refl => exact mem_cons_self ..
    | tail _ cascades ih =>
        have isSeen := swept.closed _ ih not_mem_nil _ cascades
        rw [swept.listed] at isSeen
        obtain ⟨other, member, sameId⟩ := mem_map.mp isSeen
        obtain ⟨foreignKey, isEdge, -⟩ := cascades
        have inCatalog' : other ∈ records.catalog.tables := by
          rcases mem_cons.mp member with rfl | isFound
          · exact inCatalog
          · exact (swept.reached other isFound).2
        obtain rfl := wellFormed.tableIds other inCatalog' _
          (Catalog.mem_of_referencing isEdge).1 sameId
        exact member

section

variable [Platform]

variable
  {root : TableDef}
  {snapshot : Snapshot}

/-- Following the references between rows stays within the tables reached. -/
theorem reaches_cascadeFrom
    {fuel position : Nat} {closure after : Closure}
    (within : ∀ pair ∈ closure.rows, records.catalog.Reaches root pair.1)
    (followed : records.cascadeFrom root snapshot fuel position closure = .ok after) :
    ∀ pair ∈ after.rows, records.catalog.Reaches root pair.1 := by
  induction fuel generalizing position closure with
  | zero =>
      cases followed
      exact within
  | succ fuel ih =>
      rw [cascadeFrom] at followed
      split at followed
      · cases followed
        exact within
      · next parent row isHere =>
          obtain ⟨between, folded, followed⟩ := bind_eq_ok.mp followed
          have isReached := within _ (mem_of_getElem? isHere)
          refine ih ?_ followed
          refine foldlM_invariant (fun closure => ∀ pair ∈ closure.rows,
            records.catalog.Reaches root pair.1) ?_ within folded
          intro edge isEdge before after within' stepped
          rw [cascadeThrough] at stepped
          split at stepped
          · cases stepped
            exact within'
          · next isCascade =>
              obtain ⟨found, -, stepped⟩ := bind_eq_ok.mp stepped
              refine foldlM_invariant (fun closure => ∀ pair ∈ closure.rows,
                records.catalog.Reaches root pair.1) ?_ within' stepped
              intro row _ before after within'' scheduled
              rcases schedule_cases scheduled with rfl | ⟨-, rfl⟩
              · exact within''
              · intro pair member
                rcases mem_append.mp member with isOld | isNew
                · exact within'' pair isOld
                · rw [mem_singleton.mp isNew]
                  exact isReached.tail ⟨edge.2, isEdge, not_not.mp isCascade⟩

theorem authorized_of_deletionClosure
    (wellFormed : records.catalog.WellFormed)
    (inCatalog : root ∈ records.catalog.tables)
    {context : SecurityContext}
    (authorized : records.security.authorize context root .delete = .ok ())
    {row : Row} {doomed : List (TableDef × Row)}
    (closed : records.deletionClosure context root row snapshot = .ok doomed) :
    ∀ pair ∈ doomed, records.security.authorize context pair.1 .delete = .ok () := by
  intro pair member
  rw [deletionClosure] at closed
  split at closed
  · cases closed
    rwa [mem_singleton.mp member]
  · obtain ⟨_, passed, closed⟩ := bind_eq_ok.mp closed
    obtain ⟨closure, followed, closed⟩ := bind_eq_ok.mp closed
    cases ok_of_bind closed
    have start : ∀ pair ∈ [(root, row)], records.catalog.Reaches root pair.1 := by
      intro pair isRoot
      rw [mem_singleton.mp isRoot]
      exact .refl
    have isReached := reaches_cascadeFrom start followed pair member
    rcases mem_cons.mp ((mem_cascadeReachable wellFormed inCatalog).mpr
      isReached) with isRoot | isFound
    · rw [isRoot]
      exact authorized
    · exact checkEach_eq_ok passed pair.1 isFound

/--
What a deletion takes with it is of tables that the caller may delete from,
whichever rows there are and however far their references lead.
-/
theorem authorized_of_checkDelete
    {tables : List TableDef}
    (built : ∀ table ∈ tables, ∃ builder : TableBuilder, builder.build = .ok table)
    {records : RecordTransaction}
    (made : Catalog.fromTables tables = .ok records.catalog)
    {context : SecurityContext} {table : TableDef}
    (inCatalog : table ∈ records.catalog.tables)
    {primaryKey : List Value} {snapshot : Snapshot}
    {doomed : List (TableDef × Row)}
    (checked : records.checkDelete context table primaryKey snapshot =
      .ok (some doomed)) :
    ∀ pair ∈ doomed, records.security.authorize context pair.1 .delete = .ok () := by
  obtain ⟨_, authorized, checked⟩ := bind_eq_ok.mp checked
  obtain ⟨visible, -, checked⟩ := bind_eq_ok.mp checked
  cases visible with
  | none => cases checked
  | some existing =>
      obtain ⟨closure, closed, checked⟩ := bind_eq_ok.mp checked
      cases checked
      exact authorized_of_deletionClosure (Catalog.wellFormed_of_fromTables
        built made) inCatalog authorized closed

end

/--
The tables that a deletion asks for grants of are those that cascading foreign
keys lead to from its own, through cycles and any number of steps, each once.
The walk ends within a visit of each table: with more steps it finds no more.
-/
theorem cascadeReachable_exact
    {tables : List TableDef}
    (built : ∀ table ∈ tables, ∃ builder : TableBuilder, builder.build = .ok table)
    {records : RecordTransaction}
    (made : Catalog.fromTables tables = .ok records.catalog)
    {root : TableDef}
    (inCatalog : root ∈ records.catalog.tables) :
    (records.cascadeReachable root).Nodup ∧
      (∀ table, table ∈ records.cascadeReachable root ↔
        table ≠ root ∧ records.catalog.Reaches root table) ∧
      ∀ fuel > records.catalog.tables.length,
        records.cascadeReachableFrom fuel [root.id] [root.id] [] =
          records.cascadeReachable root := by
  obtain ⟨ends, seen, swept⟩ := @swept_cascadeReachable records root
  have nodup := swept.nodup
  rw [swept.listed] at nodup
  obtain ⟨notFound, distinct⟩ := nodup_cons.mp nodup.of_map
  refine ⟨distinct, fun table => ?_, fun fuel enough => ?_⟩
  · rw [← mem_cascadeReachable (Catalog.wellFormed_of_fromTables built made)
      inCatalog, mem_cons]
    constructor
    · intro isFound
      refine ⟨?_, .inr isFound⟩
      rintro rfl
      exact notFound isFound
    · rintro ⟨isOther, isRoot | isFound⟩
      · exact absurd isRoot isOther
      · exact isFound
  · obtain ⟨extra, rfl⟩ := Nat.exists_eq_add_of_le enough
    exact ends extra

end RecordTransaction

/-! ## Authors that are deleted -/

section

local instance grantPlatform : Platform := asciiPlatform

/-- Authors lead to articles, and articles to authors, which ends. -/
theorem cascadeReachable_authors :
    [articles].Nodup ∧ (∀ table, table ∈ [articles] ↔ table ≠ authors ∧
          Catalog.Reaches ⟨[authors, articles]⟩ authors table) ∧
      ∀ fuel > 2, (RecordTransaction.plain ⟨[authors, articles]⟩).cascadeReachableFrom
          fuel [1] [1] [] = [articles] :=
  @RecordTransaction.cascadeReachable_exact _ built_authors
    (.plain ⟨[authors, articles]⟩) rfl _ mem_cons_self

/-- Transactions in which editors may delete authors and articles. -/
def editedRecords : RecordTransaction :=
  { RecordTransaction.plain ⟨[authors, articles]⟩ with
    security := {
      grants := [⟨"editor", 1, [.delete], none⟩, ⟨"editor", 2, [.delete], none⟩] } }

/-- An editor, whose actions are checked. -/
def editor : SecurityContext where
  principal := ⟨.null, none, ["editor"]⟩

/-- What an editor deletes with the first author. -/
def editorDeletion : Option (List Node) := do
  let state ← authorCalls.foldlM Call.step (.begin ∅)
  let checked ← (editedRecords.checkDelete editor authors [.i64 1]
    state.transaction).toOption
  checked

theorem editorDeletion_eq :
    editorDeletion = some doomedAuthors :=
  rfl

/-- An editor deletes an author, an article and the author it made known. -/
theorem authorized_authors :
    ∃ state : RecordState,
      editedRecords.checkDelete editor authors [.i64 1] state.transaction =
        .ok (some doomedAuthors) ∧
      ∀ pair ∈ doomedAuthors,
        editedRecords.security.authorize editor pair.1 .delete = .ok () := by
  have done := editorDeletion_eq
  rw [editorDeletion] at done
  obtain ⟨state, -, done⟩ := Option.bind_eq_some_iff.mp done
  obtain ⟨checked, isChecked, rfl⟩ := Option.bind_eq_some_iff.mp done
  have checked := eq_ok_of_toOption isChecked
  exact ⟨state, checked, RecordTransaction.authorized_of_checkDelete
    built_authors rfl mem_cons_self checked⟩

end

end SlateOrm
