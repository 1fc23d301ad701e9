import Mathlib.Data.List.Pairwise
import SlateOrm.SchemaBuild

namespace SlateOrm

open List

/-!
# Insertions into a catalog

Tables enter a catalog one at a time, and each is compared with those already
there.  Every rule between two tables is a condition on the pair that does not
say which of them came first, so a catalog is its tables and no order.
-/

/-! ## Tables that may be in one catalog -/

/-- A tenant's table has a foreign key to a table that all tenants share. -/
def TableDef.CrossesTo (child parent : TableDef) : Prop :=
  child.tenantColumn.isSome ∧ parent.tenantColumn.isNone ∧
    ∃ key ∈ child.foreignKeys, key.parent = parent.id

/-- Two tables may be in one catalog. -/
structure TableDef.Agrees (table other : TableDef) : Prop where
  ids : table.id ≠ other.id
  names : table.name ≠ other.name
  indexIds : ∀ index ∈ table.indexes, ∀ otherIndex ∈ other.indexes,
    index.id ≠ otherIndex.id
  leaves : ¬ table.CrossesTo other
  arrives : ¬ other.CrossesTo table

theorem TableDef.not_crossesTo_self
    (table : TableDef) :
    ¬ table.CrossesTo table := by
  rintro ⟨isScoped, isShared, _⟩
  rw [Option.isNone_iff_eq_none.mp isShared] at isScoped
  cases isScoped

theorem TableDef.Agrees.symm
    {table other : TableDef} (agrees : table.Agrees other) :
    other.Agrees table where
  ids := agrees.ids.symm
  names := agrees.names.symm
  indexIds := fun index member otherIndex otherMember same =>
    agrees.indexIds otherIndex otherMember index member same.symm
  leaves := agrees.arrives
  arrives := agrees.leaves

instance : Std.Symm TableDef.Agrees where
  symm _ _ agrees := agrees.symm

namespace Catalog

/-- What insertions keep true of a catalog. -/
structure Sound (catalog : Catalog) : Prop where
  ids : (catalog.tables.map TableDef.id).Nodup
  names : (catalog.tables.map TableDef.name).Nodup
  indexIds : catalog.tables.Pairwise fun table other =>
    ∀ index ∈ table.indexes, ∀ otherIndex ∈ other.indexes, index.id ≠ otherIndex.id
  tenants : ∀ child ∈ catalog.tables, ∀ parent ∈ catalog.tables,
    ¬ child.CrossesTo parent

theorem sound_of_pairwise
    {catalog : Catalog} (agree : catalog.tables.Pairwise TableDef.Agrees) :
    catalog.Sound where
  ids := pairwise_map.mpr (agree.imp TableDef.Agrees.ids)
  names := pairwise_map.mpr (agree.imp TableDef.Agrees.names)
  indexIds := agree.imp TableDef.Agrees.indexIds
  tenants := by
    intro child childMember parent parentMember
    by_cases same : child = parent
    · rw [same]
      exact parent.not_crossesTo_self
    · exact (agree.forall childMember parentMember same).leaves

/-! ## Insertion in place -/

/-- Add a table in place: what the caller is told, and what it is left with. -/
def insertInPlace (catalog : Catalog) (table : TableDef) :
    Except SchemaError Unit × Catalog :=
  match catalog.tables.find? (fun existing =>
      existing.id == table.id || existing.name == table.name) with
  | some existing => (.error (.duplicateTable existing.name), catalog)
  | none =>
      match checkEach (catalog.checkIndexId table) table.indexes with
      | .error refusal => (.error refusal, catalog)
      | .ok () =>
          let pushed : Catalog := ⟨catalog.tables ++ [table]⟩
          match pushed.refuseCrossTenantEdges with
          -- The edges are checked with the table in the catalog, so a refused
          -- one is popped again.
          | .error refusal => (.error refusal, ⟨pushed.tables.dropLast⟩)
          | .ok () => (.ok (), pushed)

/-- Insertions in place, one after the other: what each of them answers, and
the catalog after the last. -/
def insertEach (catalog : Catalog) :
    List TableDef → List (Except SchemaError Unit) × Catalog
  | [] => ([], catalog)
  | table :: rest =>
      let inserted := catalog.insertInPlace table
      let insertedRest := insertEach inserted.2 rest
      (inserted.1 :: insertedRest.1, insertedRest.2)

/-- Every one of the insertions of some tables succeeds. -/
def AcceptsEach (catalog : Catalog) (tables : List TableDef) : Prop :=
  ∀ answer ∈ (catalog.insertEach tables).1, answer = .ok ()

theorem insertInPlace_eq
    (catalog : Catalog) (table : TableDef) :
    catalog.insertInPlace table =
      match catalog.insert table with
      | .ok extended => (.ok (), extended)
      | .error refusal => (.error refusal, catalog) := by
  rw [insertInPlace, insert]
  cases catalog.tables.find? (fun existing =>
      existing.id == table.id || existing.name == table.name) with
  | some existing => rfl
  | none =>
      cases checkEach (catalog.checkIndexId table) table.indexes with
      | error refusal => rfl
      | ok _ =>
          simp only [dropLast_concat]
          cases refuseCrossTenantEdges ⟨catalog.tables ++ [table]⟩ <;> rfl

/-! ## What each check finds -/

variable {catalog : Catalog} {tables : List TableDef}

theorem find?_duplicate_eq_none_iff
    {table : TableDef} :
    catalog.tables.find? (fun existing =>
        existing.id == table.id || existing.name == table.name) = none ↔
      ∀ existing ∈ catalog.tables,
        existing.id ≠ table.id ∧ existing.name ≠ table.name := by
  simp [find?_eq_none]

theorem checkIndexIds_eq_ok_iff
    {table : TableDef} :
    checkEach (catalog.checkIndexId table) table.indexes = .ok () ↔
      ∀ existing ∈ catalog.tables, ∀ index ∈ existing.indexes,
        ∀ newIndex ∈ table.indexes, index.id ≠ newIndex.id := by
  have free_iff : ∀ newIndex : IndexDef, catalog.checkIndexId table newIndex = .ok () ↔
        ∀ existing ∈ catalog.tables, ∀ index ∈ existing.indexes,
          index.id ≠ newIndex.id := by
    intro newIndex
    have unowned : catalog.indexOwner newIndex.id = none ↔
        ∀ existing ∈ catalog.tables, ∀ index ∈ existing.indexes,
          index.id ≠ newIndex.id := by
      simp [indexOwner, findSome?_eq_none_iff]
    rw [checkIndexId, ← unowned]
    cases catalog.indexOwner newIndex.id <;> simp
  constructor
  · intro checked existing member index indexMember newIndex newMember
    exact (free_iff newIndex).mp (checkEach_eq_ok checked newIndex newMember)
      existing member index indexMember
  · intro free
    refine checkEach_of_forall fun newIndex newMember => ?_
    exact (free_iff newIndex).mpr fun existing member index indexMember =>
      free existing member index indexMember newIndex newMember

/-- The last check finds no edge that crosses tenants. -/
theorem refuseCrossTenantEdges_eq_ok_iff
    (ids : (catalog.tables.map TableDef.id).Nodup) :
    catalog.refuseCrossTenantEdges = .ok () ↔
      ∀ child ∈ catalog.tables, ∀ parent ∈ catalog.tables,
        ¬ child.CrossesTo parent := by
  have unique : ∀ parent ∈ catalog.tables, catalog.table parent.id = some parent := by
    intro parent member
    rw [table]
    cases found : catalog.tables.find? (·.id == parent.id) with
    | none =>
        have differs := find?_eq_none.mp found parent member
        simp at differs
    | some other =>
        have sameId : other.id = parent.id := by
          simpa using find?_some found
        rw [inj_on_of_nodup_map ids (mem_of_find?_eq_some found) member sameId]
  constructor
  · rintro checked child childMember parent parentMember
      ⟨isScoped, isShared, key, keyMember, leads⟩
    have passed := checkEach_eq_ok
      (checkEach_eq_ok checked child childMember) key keyMember
    rw [refuseCrossTenantEdge, leads, unique parent parentMember] at passed
    simp [isScoped, isShared] at passed
  · intro tenants
    refine checkEach_of_forall fun child childMember => ?_
    refine checkEach_of_forall fun key keyMember => ?_
    rw [refuseCrossTenantEdge]
    cases found : catalog.table key.parent with
    | none => rfl
    | some parent =>
        have parentMember := mem_of_find?_eq_some found
        have leads : parent.id = key.parent := by
          simpa using find?_some found
        have stays := tenants child childMember parent parentMember
        have allowed : ¬ (child.tenantColumn.isSome ∧ parent.tenantColumn.isNone) :=
          fun crosses => stays ⟨crosses.1, crosses.2, key, keyMember, leads.symm⟩
        simp only [allowed, ↓reduceIte]

/-! ## Sequences of insertions -/

/-- A table enters a catalog of agreeing tables when it agrees with them. -/
theorem insert_eq_ok_iff
    {catalog extended : Catalog} {table : TableDef}
    (agree : catalog.tables.Pairwise TableDef.Agrees) :
    catalog.insert table = .ok extended ↔ extended = ⟨catalog.tables ++ [table]⟩ ∧
        ∀ existing ∈ catalog.tables, existing.Agrees table := by
  have ids_of : (∀ existing ∈ catalog.tables,
      existing.id ≠ table.id ∧ existing.name ≠ table.name) →
      ((catalog.tables ++ [table]).map TableDef.id).Nodup := by
    intro fresh
    have before := (sound_of_pairwise agree).ids
    rw [map_append, nodup_append]
    refine ⟨before, nodup_singleton _, ?_⟩
    intro id isOld newId isNew
    obtain ⟨existing, member, rfl⟩ := mem_map.mp isOld
    rw [mem_singleton.mp isNew]
    exact (fresh existing member).1
  constructor
  · intro inserted
    rw [insert] at inserted
    split at inserted
    · cases inserted
    next isNew =>
      obtain ⟨⟨⟩, indexIds, inserted⟩ := bind_eq_ok.mp inserted
      obtain ⟨⟨⟩, edges, inserted⟩ := bind_eq_ok.mp inserted
      cases inserted
      have fresh := find?_duplicate_eq_none_iff.mp isNew
      have tenants := (refuseCrossTenantEdges_eq_ok_iff (ids_of fresh)).mp edges
      refine ⟨rfl, fun existing member => ?_⟩
      have older : existing ∈ catalog.tables ++ [table] := mem_append_left _ member
      have newer : table ∈ catalog.tables ++ [table] :=
        mem_append_right _ (mem_singleton_self table)
      exact {
        ids := (fresh existing member).1
        names := (fresh existing member).2
        indexIds := checkIndexIds_eq_ok_iff.mp indexIds existing member
        leaves := tenants existing older table newer
        arrives := tenants table newer existing older }
  · rintro ⟨rfl, agrees⟩
    have isNew := find?_duplicate_eq_none_iff.mpr fun existing member =>
      ⟨(agrees existing member).ids, (agrees existing member).names⟩
    have indexIds := checkIndexIds_eq_ok_iff.mpr fun existing member =>
      (agrees existing member).indexIds
    have pairwise : (catalog.tables ++ [table]).Pairwise TableDef.Agrees :=
      pairwise_append.mpr ⟨agree, pairwise_singleton _ _,
        fun existing member other isLast =>
          mem_singleton.mp isLast ▸ agrees existing member⟩
    have sound := @sound_of_pairwise ⟨catalog.tables ++ [table]⟩ pairwise
    have edges := (refuseCrossTenantEdges_eq_ok_iff sound.ids).mpr sound.tenants
    rw [insert, isNew]
    simp only [indexIds]
    exact bind_eq_ok.mpr ⟨(), rfl, bind_eq_ok.mpr ⟨(), edges, rfl⟩⟩

section

variable
  (agree : catalog.tables.Pairwise TableDef.Agrees)

include agree

theorem pairwise_insertInPlace
    (table : TableDef) :
    (catalog.insertInPlace table).2.tables.Pairwise TableDef.Agrees := by
  rw [insertInPlace_eq]
  cases inserted : catalog.insert table with
  | error refusal => exact agree
  | ok extended =>
      obtain ⟨rfl, agrees⟩ := (insert_eq_ok_iff agree).mp inserted
      refine pairwise_append.mpr ⟨agree, pairwise_singleton _ _, ?_⟩
      intro existing member other isLast
      rw [mem_singleton.mp isLast]
      exact agrees existing member

theorem pairwise_insertEach
    (tables : List TableDef) :
    (catalog.insertEach tables).2.tables.Pairwise TableDef.Agrees := by
  induction tables generalizing catalog with
  | nil => exact agree
  | cons table rest ih => exact ih (pairwise_insertInPlace agree table)

/-- Insertions all succeed when the tables agree with each other and with
those already in the catalog. -/
theorem acceptsEach_iff
    (tables : List TableDef) :
    catalog.AcceptsEach tables ↔
      (catalog.tables ++ tables).Pairwise TableDef.Agrees := by
  induction tables generalizing catalog with
  | nil => simpa [AcceptsEach, insertEach] using agree
  | cons table rest ih =>
      have first := insertInPlace_eq catalog table
      cases inserted : catalog.insert table with
      | error refusal =>
          rw [inserted] at first
          refine iff_of_false ?_ ?_
          · intro accepts
            have accepted := accepts _ (mem_cons_self ..)
            rw [first] at accepted
            cases accepted
          · intro pairwise
            obtain ⟨_, _, agrees⟩ := pairwise_append.mp pairwise
            have accepted := (insert_eq_ok_iff agree).mpr ⟨rfl,
              fun existing member => agrees existing member table (mem_cons_self ..)⟩
            rw [inserted] at accepted
            cases accepted
      | ok extended =>
          have grown := pairwise_insertInPlace agree table
          rw [inserted] at first
          obtain ⟨rfl, _⟩ := (insert_eq_ok_iff agree).mp inserted
          rw [first] at grown
          have restAccepted := ih grown
          rw [append_assoc, singleton_append] at restAccepted
          rw [← restAccepted]
          simp [AcceptsEach, insertEach, first]

end

theorem pairwise_insertAll
    {catalog extended : Catalog}
    (agree : catalog.tables.Pairwise TableDef.Agrees)
    (inserted : insertAll catalog tables = .ok extended) :
    extended.tables.Pairwise TableDef.Agrees := by
  induction tables generalizing catalog with
  | nil =>
      cases inserted
      exact agree
  | cons table rest ih =>
      obtain ⟨between, insertedFirst, insertedRest⟩ := bind_eq_ok.mp inserted
      have grown := pairwise_insertInPlace agree table
      rw [insertInPlace_eq, insertedFirst] at grown
      exact ih grown insertedRest

theorem sound_of_fromTables
    (made : fromTables tables = .ok catalog) :
    catalog.Sound ∧ catalog.validateForeignKeys = .ok () := by
  obtain ⟨inserted, insertedAll, made⟩ := bind_eq_ok.mp made
  obtain ⟨_, validated, made⟩ := bind_eq_ok.mp made
  cases made
  have start : (Catalog.tables {}).Pairwise TableDef.Agrees := List.Pairwise.nil
  exact ⟨sound_of_pairwise (pairwise_insertAll start insertedAll), validated⟩

/-- After any sequence of insertions into a new catalog its rules hold, a
refused insertion changes nothing, and whether a list of tables is accepted
does not depend on the order they come in. -/
theorem insertions_sound
    (insertions : List TableDef) :
    (insertEach {} insertions).2.Sound ∧ (∀ table refusal,
        ((insertEach {} insertions).2.insertInPlace table).1 = .error refusal →
          ((insertEach {} insertions).2.insertInPlace table).2 =
            (insertEach {} insertions).2) ∧
      ∀ tables reordered : List TableDef, tables.Perm reordered →
        (insertEach {} insertions).2.AcceptsEach tables →
          (insertEach {} insertions).2.AcceptsEach reordered := by
  have start : (Catalog.tables {}).Pairwise TableDef.Agrees := List.Pairwise.nil
  have agree := pairwise_insertEach start insertions
  refine ⟨sound_of_pairwise agree, ?_, ?_⟩
  · intro table refusal refused
    rw [insertInPlace_eq] at refused ⊢
    cases inserted : insert _ table with
    | error _ => rfl
    | ok _ =>
        rw [inserted] at refused
        cases refused
  · intro tables reordered permuted accepts
    have pairwise := (acceptsEach_iff agree tables).mp accepts
    have together := permuted.append_left (insertEach {} insertions).2.tables
    exact (acceptsEach_iff agree reordered).mpr
      ((together.pairwise_iff fun agrees => agrees.symm).mp pairwise)

end Catalog

end SlateOrm
