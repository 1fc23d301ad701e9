import SlateOrm.Schema

namespace SlateOrm

open List Option

/-!
# What the builder guarantees

A table that the builder makes has a primary key of distinct columns that are
always there, indexes with ids of their own over columns that can be keys, and
columns that agree with their declaration.  Everything later relies on these
facts and never looks into the builder again.
-/

theorem checkEach_of_forall
    {ε α : Type} {check : α → Except ε Unit} {values : List α}
    (passes : ∀ value ∈ values, check value = .ok ()) :
    checkEach check values = .ok () := by
  induction values with
  | nil => rfl
  | cons value rest ih =>
      rw [checkEach, passes value (mem_cons_self ..)]
      exact ih (fun other member => passes other (mem_cons_of_mem _ member))

/-! ## Columns -/

/-- Columns that differ at most in their default, names and dropping. -/
structure ColumnDef.Declares (declared column : ColumnDef) : Prop where
  name : column.name = declared.name
  type : column.type = declared.type
  nullable : column.nullable = declared.nullable
  element : column.element = declared.element
  managed : column.managed = declared.managed

namespace ColumnDef.Declares

theorem refl (column : ColumnDef) : column.Declares column :=
  ⟨rfl, rfl, rfl, rfl, rfl⟩

theorem trans
    {first second third : ColumnDef} (left : first.Declares second)
    (right : second.Declares third) :
    first.Declares third where
  name := right.name.trans left.name
  type := right.type.trans left.type
  nullable := right.nullable.trans left.nullable
  element := right.element.trans left.element
  managed := right.managed.trans left.managed

theorem forall₂_trans
    {first second third : List ColumnDef}
    (left : List.Forall₂ ColumnDef.Declares first second)
    (right : List.Forall₂ ColumnDef.Declares second third) :
    List.Forall₂ ColumnDef.Declares first third := by
  induction left generalizing third with
  | nil => exact right
  | cons head _ ih =>
      cases right with
      | cons otherHead others =>
          exact List.Forall₂.cons (head.trans otherHead) (ih others)

end ColumnDef.Declares

variable {table : String} {change : ColumnChange} {schemaVersion : UInt32}
  {changes : List ColumnChange} {columns : List ColumnDef} {ordinal : Ordinal}
  {column : ColumnDef} {names : List String} {built key : List Ordinal}
  {name : Option String}

theorem changeColumn_declares
    {column changed : ColumnDef}
    (success : changeColumn table schemaVersion change column = .ok changed) :
    column.Declares changed := by
  cases change with
  | default name value
  | dropped name version =>
      simp only [changeColumn] at success
      split at success
      · cases success
      · split at success
        · cases success
        · cases success
          exact ⟨rfl, rfl, rfl, rfl, rfl⟩
  | renamed name previous =>
      cases success
      exact ⟨rfl, rfl, rfl, rfl, rfl⟩

theorem changeColumns_declares
    {columns changed : List ColumnDef}
    (success : changeColumns table schemaVersion change columns = .ok changed) :
    List.Forall₂ ColumnDef.Declares columns changed := by
  induction columns generalizing changed with
  | nil => cases success
  | cons column rest ih =>
      rw [changeColumns] at success
      split at success
      · obtain ⟨head, changedHead, result⟩ := bind_eq_ok.mp success
        cases result
        refine List.Forall₂.cons (changeColumn_declares changedHead) ?_
        exact forall₂_same.mpr (fun other _ => ColumnDef.Declares.refl other)
      · obtain ⟨others, changedRest, result⟩ := bind_eq_ok.mp success
        cases result
        exact List.Forall₂.cons (ColumnDef.Declares.refl column) (ih changedRest)

theorem applyChanges_declares
    {columns changed : List ColumnDef}
    (success : applyChanges table schemaVersion changes columns = .ok changed) :
    List.Forall₂ ColumnDef.Declares columns changed := by
  induction changes generalizing columns with
  | nil =>
      cases success
      exact forall₂_same.mpr (fun column _ => ColumnDef.Declares.refl column)
  | cons change rest ih =>
      rw [applyChanges] at success
      obtain ⟨between, first, later⟩ := bind_eq_ok.mp success
      exact ColumnDef.Declares.forall₂_trans (changeColumns_declares first) (ih later)

/-- A column that is dropped was dropped by a version. -/
def ColumnDef.DroppedBy (version : UInt32) (column : ColumnDef) : Prop :=
  ∀ dropped, column.droppedIn = some dropped → dropped ≤ version

theorem changeColumn_droppedBy
    {column changed : ColumnDef} (before : column.DroppedBy schemaVersion)
    (success : changeColumn table schemaVersion change column = .ok changed) :
    changed.DroppedBy schemaVersion := by
  cases change with
  | default name value =>
      simp only [changeColumn] at success
      split at success
      · cases success
      · split at success
        · cases success
        · cases success
          exact before
  | dropped name version =>
      simp only [changeColumn] at success
      split at success
      · cases success
      · split at success
        · cases success
        · next notLater =>
            cases success
            intro dropped isDropped
            cases isDropped
            exact UInt32.not_lt.mp notLater
  | renamed name previous =>
      cases success
      exact before

/-- No declared change drops a column in a later version. -/
theorem applyChanges_droppedBy
    {columns changed : List ColumnDef}
    (before : ∀ column ∈ columns, column.DroppedBy schemaVersion)
    (success : applyChanges table schemaVersion changes columns = .ok changed) :
    ∀ column ∈ changed, column.DroppedBy schemaVersion := by
  induction changes generalizing columns with
  | nil =>
      cases success
      exact before
  | cons change rest ih =>
      rw [applyChanges] at success
      obtain ⟨between, first, later⟩ := bind_eq_ok.mp success
      refine ih ?_ later
      clear ih later success
      induction columns generalizing between with
      | nil => cases first
      | cons column others ih =>
          have ofOthers : ∀ other ∈ others, other.DroppedBy schemaVersion :=
            fun other member => before other (mem_cons_of_mem _ member)
          have ofColumn := before column (mem_cons_self ..)
          rw [changeColumns] at first
          split at first
          · obtain ⟨head, changedHead, result⟩ := bind_eq_ok.mp first
            cases result
            rintro other (_ | ⟨_, inOthers⟩)
            · exact changeColumn_droppedBy ofColumn changedHead
            · exact ofOthers other inOthers
          · obtain ⟨changedOthers, changedRest, result⟩ := bind_eq_ok.mp first
            cases result
            rintro other (_ | ⟨_, inOthers⟩)
            · exact ofColumn
            · exact ih ofOthers changedOthers changedRest other inOthers

/-! ## Keys -/

/-- A column that values of a key are taken from. -/
structure ColumnDef.Keyable (column : ColumnDef) : Prop where
  notVector : column.type ≠ .vector
  notArray : column.type ≠ .array
  live : column.isDropped = false

theorem keyable_of_checks
    {table key name : String}
    (found : columns[ordinal]? = some column)
    (keyable : rejectUnkeyable columns ordinal table key name = .ok ())
    (live : rejectDropped columns ordinal table key name = .ok ()) :
    column.Keyable := by
  rw [rejectUnkeyable, found] at keyable
  rw [rejectDropped, found] at live
  refine ⟨?_, ?_, ?_⟩
  · intro isVector
    rw [map_some, isVector] at keyable
    cases keyable
  · intro isArray
    rw [map_some, isArray] at keyable
    cases keyable
  · cases dropped : column.isDropped with
    | false => rfl
    | true =>
        simp only [dropped, if_true] at live
        cases live

theorem column_of_resolve
    {table name : String}
    (resolved : resolve table columns name = .ok ordinal) :
    ∃ column, columns[ordinal]? = some column ∧ column.name = name := by
  rw [resolve] at resolved
  split at resolved
  · next position found =>
      cases resolved
      obtain ⟨inRange, sameName, _⟩ := findIdx?_eq_some_iff_getElem.mp found
      exact ⟨columns[ordinal], getElem?_eq_getElem inRange, eq_of_beq sameName⟩
  · cases resolved

/-- A column of a primary key. -/
structure KeyColumn (columns : List ColumnDef) (names : List String)
    (ordinal : Ordinal) : Prop where
  column : ∃ column, columns[ordinal]? = some column ∧
    column.nullable = false ∧ column.Keyable ∧ column.name ∈ names

/-- The columns of a primary key are distinct and always there. -/
theorem buildPrimaryKey_spec
    (distinct : built.Nodup)
    (success : buildPrimaryKey table columns built names = .ok key) :
    key.Nodup ∧ built <+: key ∧ key.length = built.length + names.length ∧
      ∀ ordinal ∈ key, ordinal ∈ built ∨ KeyColumn columns names ordinal := by
  induction names generalizing built with
  | nil =>
      cases success
      exact ⟨distinct, prefix_rfl, rfl, fun _ member => Or.inl member⟩
  | cons name rest ih =>
      rw [buildPrimaryKey] at success
      obtain ⟨ordinal, resolved, success⟩ := bind_eq_ok.mp success
      split at success
      · cases success
      · next fresh =>
          split at success
          · cases success
          · next always =>
              obtain ⟨_, keyable, success⟩ := bind_eq_ok.mp success
              obtain ⟨_, live, success⟩ := bind_eq_ok.mp success
              have isNew : ordinal ∉ built := by
                simpa using fresh
              have extended : (built ++ [ordinal]).Nodup := nodup_append.mpr
                  ⟨distinct, nodup_singleton ordinal,
                    fun first inBuilt second isLast => by
                      rintro rfl
                      rw [mem_singleton.mp isLast] at inBuilt
                      exact isNew inBuilt⟩
              obtain ⟨nodup, extends_, length, members⟩ := ih extended success
              obtain ⟨column, found, hasName⟩ := column_of_resolve resolved
              refine ⟨nodup, (prefix_append built [ordinal]).trans extends_, ?_, ?_⟩
              · rw [length, length_append, length_cons]
                simp only [length_nil, length_cons]
                omega
              · intro other member
                rcases members other member with inBuilt | inRest
                · rcases mem_append.mp inBuilt with older | isLast
                  · exact Or.inl older
                  · rw [mem_singleton.mp isLast]
                    refine Or.inr ⟨column, found, ?_,
                      keyable_of_checks found keyable live, ?_⟩
                    · rw [found] at always
                      simpa using always
                    · rw [hasName]
                      exact mem_cons_self ..
                · obtain ⟨column, found, nonNull, isKeyable, named⟩ := inRest.column
                  exact Or.inr ⟨column, found, nonNull, isKeyable,
                    mem_cons_of_mem _ named⟩

theorem buildTenantColumn_spec
    {primaryKey : List Ordinal} {tenant : Ordinal}
    (success : buildTenantColumn table columns primaryKey name = .ok (some tenant)) :
    primaryKey.head? = some tenant := by
  cases name with
  | none => cases success
  | some name =>
      rw [buildTenantColumn] at success
      obtain ⟨ordinal, _, success⟩ := bind_eq_ok.mp success
      split at success
      · cases success
      · next isHead =>
          cases success
          exact not_not.mp isHead

/-- A column that says when a row was deleted. -/
structure ColumnDef.Retires (column : ColumnDef) : Prop where
  type : column.type = .i64
  nullable : column.nullable = true
  unmanaged : column.managed = none

theorem buildSoftDelete_spec
    (success : buildSoftDelete table columns name = .ok (some ordinal)) :
    ∃ column, columns[ordinal]? = some column ∧ column.Retires := by
  cases name with
  | none => cases success
  | some name =>
      rw [buildSoftDelete] at success
      obtain ⟨found, _, success⟩ := bind_eq_ok.mp success
      split at success
      · cases success
      · next column isColumn =>
          split at success
          · cases success
          · next isTimestamp =>
              split at success
              · cases success
              · next isNullable =>
                  split at success
                  · cases success
                  · next isUnmanaged =>
                      cases success
                      refine ⟨column, isColumn, not_not.mp isTimestamp, ?_, ?_⟩
                      · simpa using isNullable
                      · simpa using isUnmanaged

/-! ## Indexes -/

/-- A column of an index. -/
def IndexColumn.On (columns : List ColumnDef) (entry : IndexColumn) : Prop :=
  ∃ column, columns[entry.ordinal]? = some column ∧ column.Keyable

/-- The columns of an index are distinct and can be keys. -/
theorem buildIndexColumns_spec
    {table index : String} {names : List (String × Direction)}
    {built key : List IndexColumn}
    (distinct : (built.map IndexColumn.ordinal).Nodup)
    (usable : ∀ entry ∈ built, entry.On columns)
    (success : buildIndexColumns table columns index built names = .ok key) :
    (key.map IndexColumn.ordinal).Nodup ∧ key.length = built.length + names.length ∧
      ∀ entry ∈ key, entry.On columns := by
  induction names generalizing built with
  | nil =>
      cases success
      exact ⟨distinct, rfl, usable⟩
  | cons name rest ih =>
      obtain ⟨name, direction⟩ := name
      rw [buildIndexColumns] at success
      obtain ⟨ordinal, resolved, success⟩ := bind_eq_ok.mp success
      split at success
      · cases success
      · next fresh =>
          obtain ⟨_, keyable, success⟩ := bind_eq_ok.mp success
          obtain ⟨_, live, success⟩ := bind_eq_ok.mp success
          obtain ⟨column, found, _⟩ := column_of_resolve resolved
          have isNew : ordinal ∉ built.map IndexColumn.ordinal := by
            intro member
            obtain ⟨entry, inBuilt, same⟩ := mem_map.mp member
            exact fresh (any_eq_true.mpr ⟨entry, inBuilt, beq_iff_eq.mpr same⟩)
          have extended : ((built ++ [IndexColumn.mk ordinal direction]).map
                IndexColumn.ordinal).Nodup := by
            rw [map_append, map_singleton]
            refine nodup_append.mpr ⟨distinct, nodup_singleton ordinal, ?_⟩
            rintro first inBuilt second isLast rfl
            rw [mem_singleton.mp isLast] at inBuilt
            exact isNew inBuilt
          have stillUsable : ∀ entry ∈ built ++ [IndexColumn.mk ordinal direction],
                entry.On columns := by
            intro entry member
            rcases mem_append.mp member with inBuilt | isLast
            · exact usable entry inBuilt
            · rw [mem_singleton.mp isLast]
              exact ⟨column, found, keyable_of_checks found keyable live⟩
          obtain ⟨nodup, length, members⟩ := ih extended stillUsable success
          refine ⟨nodup, ?_, members⟩
          rw [length, length_append, length_cons]
          simp only [length_nil, length_cons]
          omega

/-- What holds of every index of a table with the given columns. -/
structure IndexDef.WellFormed (columns : List ColumnDef)
    (index : IndexDef) : Prop where
  distinct : (index.columns.map IndexColumn.ordinal).Nodup
  usable : ∀ entry ∈ index.columns, entry.On columns
  keyed : index.columns = [] ↔ index.expression.isSome
  text : index.text = true → index.unique = false ∧ index.expression = none ∧
      ∃ entry column, index.columns = [entry] ∧
        columns[entry.ordinal]? = some column ∧ column.type = .str

/-- An index that the builder makes is well formed and new. -/
theorem buildIndex_spec
    {built : List IndexDef} {spec : IndexBuilder} {index : IndexDef}
    (success : buildIndex table columns built spec = .ok index) :
    index.WellFormed columns ∧ index.id ∉ built.map IndexDef.id := by
  rw [buildIndex] at success
  split at success
  · cases success
  · next notComputed =>
      split at success
      · cases success
      · next keyed =>
          split at success
          · cases success
          · next fresh =>
              obtain ⟨key, builtKey, success⟩ := bind_eq_ok.mp success
              have noColumns :
                  (([] : List IndexColumn).map IndexColumn.ordinal).Nodup :=
                nodup_nil
              obtain ⟨distinct, length, usable⟩ := buildIndexColumns_spec
                noColumns (fun _ member => absurd member not_mem_nil) builtKey
              split at success
              · cases success
              · next accepted =>
                  cases success
                  refine ⟨⟨distinct, usable, ?_, ?_⟩, ?_⟩
                  · simp only [length_nil, Nat.zero_add] at length
                    have sameLength : key = [] ↔ spec.columns = [] := by
                      rw [← length_eq_zero_iff, length, length_eq_zero_iff]
                    rw [sameLength, ← List.isEmpty_iff]
                    simp only
                    rw [← not_isNone, Bool.not_eq_true']
                    cases isEmpty : spec.columns.isEmpty <;>
                      cases isNone : spec.expression.isNone <;>
                        simp_all only [not_true_eq_false, not_false_eq_true,
                          reduceCtorEq, iff_self]
                  · intro isText
                    simp only at isText
                    rw [if_pos isText] at accepted
                    rw [textRefusalOf] at accepted
                    split at accepted
                    · cases accepted
                    · next notUnique =>
                        split at accepted
                        · cases accepted
                        · next single =>
                            split at accepted
                            · cases accepted
                            · next isString =>
                                refine ⟨by simpa using notUnique, ?_, ?_⟩
                                · simpa [isText] using notComputed
                                · obtain ⟨entry, isEntry⟩ :=
                                    length_eq_one_iff.mp (not_not.mp single)
                                  subst isEntry
                                  obtain ⟨column, found, _⟩ :=
                                    usable entry (mem_singleton.mpr rfl)
                                  refine ⟨entry, column, rfl, found, ?_⟩
                                  simpa [found] using isString
                  · intro member
                    obtain ⟨other, inBuilt, same⟩ := mem_map.mp member
                    exact fresh (any_eq_true.mpr ⟨other, inBuilt, by simp [same]⟩)

theorem buildIndexes_spec
    {specs : List IndexBuilder} {built indexes : List IndexDef}
    (distinct : (built.map IndexDef.id).Nodup)
    (wellFormed : ∀ index ∈ built, index.WellFormed columns)
    (success : buildIndexes table columns built specs = .ok indexes) :
    (indexes.map IndexDef.id).Nodup ∧ ∀ index ∈ indexes, index.WellFormed columns := by
  induction specs generalizing built with
  | nil =>
      cases success
      exact ⟨distinct, wellFormed⟩
  | cons spec rest ih =>
      rw [buildIndexes] at success
      obtain ⟨index, builtIndex, success⟩ := bind_eq_ok.mp success
      obtain ⟨isWellFormed, isNew⟩ := buildIndex_spec builtIndex
      refine ih ?_ ?_ success
      · rw [map_append]
        refine nodup_append.mpr ⟨distinct, nodup_singleton index.id, ?_⟩
        rintro first inBuilt second isLast rfl
        rw [map_singleton, mem_singleton] at isLast
        rw [isLast] at inBuilt
        exact isNew inBuilt
      · intro other member
        rcases mem_append.mp member with older | isLast
        · exact wellFormed other older
        · rw [mem_singleton.mp isLast]
          exact isWellFormed

/-! ## Foreign keys -/

/-- A column that is there and not dropped. -/
def LiveColumn (columns : List ColumnDef) (ordinal : Ordinal) : Prop :=
  ∃ column, columns[ordinal]? = some column ∧ column.isDropped = false

theorem live_of_rejectDropped
    {table key name : String}
    (found : columns[ordinal]? = some column)
    (live : rejectDropped columns ordinal table key name = .ok ()) :
    LiveColumn columns ordinal := by
  refine ⟨column, found, ?_⟩
  rw [rejectDropped, found] at live
  cases dropped : column.isDropped with
  | false => rfl
  | true =>
      simp only [dropped, if_true] at live
      cases live

theorem buildForeignKeyColumns_spec
    {table foreignKey : String}
    (live : ∀ ordinal ∈ built, LiveColumn columns ordinal)
    (success : buildForeignKeyColumns table columns foreignKey built names = .ok key) :
    ∀ ordinal ∈ key, LiveColumn columns ordinal := by
  induction names generalizing built with
  | nil =>
      cases success
      exact live
  | cons name rest ih =>
      rw [buildForeignKeyColumns] at success
      obtain ⟨ordinal, resolved, success⟩ := bind_eq_ok.mp success
      split at success
      · cases success
      · obtain ⟨_, notDropped, success⟩ := bind_eq_ok.mp success
        obtain ⟨column, found, _⟩ := column_of_resolve resolved
        refine ih ?_ success
        intro other member
        rcases mem_append.mp member with older | isLast
        · exact live other older
        · rw [mem_singleton.mp isLast]
          exact live_of_rejectDropped found notDropped

theorem buildForeignKeys_spec
    {specs : List ForeignKeyBuilder} {built keys : List ForeignKeyDef}
    (live : ∀ key ∈ built, ∀ ordinal ∈ key.columns, LiveColumn columns ordinal)
    (success : buildForeignKeys table columns built specs = .ok keys) :
    ∀ key ∈ keys, ∀ ordinal ∈ key.columns, LiveColumn columns ordinal := by
  induction specs generalizing built with
  | nil =>
      cases success
      exact live
  | cons spec rest ih =>
      rw [buildForeignKeys] at success
      split at success
      · cases success
      · split at success
        · cases success
        · obtain ⟨key, builtKey, success⟩ := bind_eq_ok.mp success
          refine ih ?_ success
          intro other member
          rcases mem_append.mp member with older | isLast
          · exact live other older
          · rw [mem_singleton.mp isLast]
            exact buildForeignKeyColumns_spec
              (fun _ member => absurd member not_mem_nil) builtKey

/-! ## Tables -/

/-- What holds of every table that the builder makes. -/
structure TableDef.WellFormed (table : TableDef) : Prop where
  keyNonempty : table.primaryKey ≠ []
  keyDistinct : table.primaryKey.Nodup
  key : ∀ ordinal ∈ table.primaryKey, ∃ column,
    table.column ordinal = some column ∧ column.nullable = false ∧
      column.Keyable ∧ column.managed = none
  tenant : ∀ ordinal, table.tenantColumn = some ordinal →
    table.primaryKey.head? = some ordinal
  softDelete : ∀ ordinal, table.softDelete = some ordinal →
    ∃ column, table.column ordinal = some column ∧ column.Retires
  arrays : ∀ column ∈ table.columns, column.type = .array →
    ∃ element, column.element = some element ∧ element ≠ .array
  managed : ∀ column ∈ table.columns, column.managed.isSome →
    column.type = .i64 ∧ column.nullable = false
  dropped : ∀ column ∈ table.columns, column.DroppedBy table.schemaVersion
  indexIds : (table.indexes.map IndexDef.id).Nodup
  indexes : ∀ index ∈ table.indexes, index.WellFormed table.columns
  foreignKeys : ∀ key ∈ table.foreignKeys, ∀ ordinal ∈ key.columns,
    LiveColumn table.columns ordinal
  body : table.bodyColumns = (List.range table.columns.length).filter
      (fun ordinal => !table.primaryKey.contains ordinal)
  stored : table.storedColumns = table.bodyColumns.filter
      (fun ordinal => !(table.columns[ordinal]?).any ColumnDef.isDropped)

theorem array_of_checkColumnType
    {declared column : ColumnDef} (declares : declared.Declares column)
    (checked : checkColumnType table declared = .ok ())
    (isArray : column.type = .array) :
    ∃ element, column.element = some element ∧ element ≠ .array := by
  have declaredArray : declared.type = .array := declares.type.symm.trans isArray
  rw [checkColumnType] at checked
  split at checked
  · cases checked
  · next hasElement =>
      split at checked
      · cases checked
      · next notNested =>
          rw [declares.element]
          cases element : declared.element with
          | none => exact absurd ⟨declaredArray, element⟩ hasElement
          | some element' =>
              refine ⟨element', rfl, ?_⟩
              rintro rfl
              exact notNested ⟨declaredArray, element⟩

theorem managed_of_checkManaged
    {declared column : ColumnDef} (declares : declared.Declares column)
    (checked : checkManaged table names declared = .ok ())
    (isManaged : column.managed.isSome) :
    column.type = .i64 ∧ column.nullable = false ∧ column.name ∉ names := by
  rw [declares.managed] at isManaged
  have notNone : ¬declared.managed.isNone = true := by
    rw [isNone_iff_eq_none]
    exact isSome_iff_ne_none.mp isManaged
  rw [checkManaged, if_neg notNone] at checked
  split at checked
  · cases checked
  · next isTimestamp =>
      split at checked
      · cases checked
      · next always =>
          split at checked
          · cases checked
          · next outside =>
              refine ⟨declares.type.trans (not_not.mp isTimestamp), ?_, ?_⟩
              · rw [declares.nullable]
                simpa using always
              · rw [declares.name]
                simpa using outside

theorem declared_of_mem
    {declared columns : List ColumnDef}
    (declares : List.Forall₂ ColumnDef.Declares declared columns)
    (member : column ∈ columns) :
    ∃ origin ∈ declared, origin.Declares column := by
  induction declares with
  | nil => cases member
  | cons head _ ih =>
      rcases mem_cons.mp member with rfl | inRest
      · exact ⟨_, mem_cons_self .., head⟩
      · obtain ⟨origin, inDeclared, agrees⟩ := ih inRest
        exact ⟨origin, mem_cons_of_mem _ inDeclared, agrees⟩

/-- A table that the builder makes is well formed. -/
theorem TableBuilder.build_wellFormed
    {builder : TableBuilder} {table : TableDef}
    (success : builder.build = .ok table) :
    table.WellFormed := by
  rw [TableBuilder.build] at success
  replace success := ok_of_bind success
  obtain ⟨_, typesChecked, success⟩ := bind_eq_ok.mp success
  obtain ⟨_, managedChecked, success⟩ := bind_eq_ok.mp success
  obtain ⟨columns, changed, success⟩ := bind_eq_ok.mp success
  replace success := ok_of_bind success
  replace success := ok_of_bind success
  have declares := applyChanges_declares changed
  have notDropped : ∀ column ∈ builder.columns.map ColumnSpec.toColumn,
      column.DroppedBy builder.schemaVersion := by
    intro column member
    obtain ⟨spec, _, rfl⟩ := mem_map.mp member
    intro dropped isDropped
    cases isDropped
  have arrays : ∀ column ∈ columns, column.type = .array →
      ∃ element, column.element = some element ∧ element ≠ .array := by
    intro column member
    obtain ⟨origin, inDeclared, agrees⟩ := declared_of_mem declares member
    exact array_of_checkColumnType agrees
      (checkEach_eq_ok typesChecked origin inDeclared)
  have managed : ∀ column ∈ columns, column.managed.isSome →
      column.type = .i64 ∧ column.nullable = false ∧
        column.name ∉ builder.primaryKey := by
    intro column member
    obtain ⟨origin, inDeclared, agrees⟩ := declared_of_mem declares member
    exact managed_of_checkManaged agrees
      (checkEach_eq_ok managedChecked origin inDeclared)
  split at success
  · cases success
  · next hasKey =>
      obtain ⟨primaryKey, builtKey, success⟩ := bind_eq_ok.mp success
      obtain ⟨tenant, builtTenant, success⟩ := bind_eq_ok.mp success
      obtain ⟨softDelete, builtSoftDelete, success⟩ := bind_eq_ok.mp success
      obtain ⟨indexes, builtIndexes, success⟩ := bind_eq_ok.mp success
      replace success := ok_of_bind success
      obtain ⟨foreignKeys, builtForeignKeys, success⟩ := bind_eq_ok.mp success
      cases success
      obtain ⟨keyDistinct, _, keyLength, keyColumns⟩ :=
        buildPrimaryKey_spec nodup_nil builtKey
      have noIndexes : (([] : List IndexDef).map IndexDef.id).Nodup := nodup_nil
      obtain ⟨indexIds, indexesWellFormed⟩ := buildIndexes_spec noIndexes
        (fun _ member => absurd member not_mem_nil) builtIndexes
      refine {
        keyNonempty := ?_
        keyDistinct := keyDistinct
        key := ?_
        tenant := ?_
        softDelete := ?_
        arrays := arrays
        managed := ?_
        dropped := applyChanges_droppedBy notDropped changed
        indexIds := indexIds
        indexes := indexesWellFormed
        foreignKeys := ?_
        body := rfl
        stored := rfl }
      · rintro rfl
        simp only [length_nil, Nat.zero_add] at keyLength
        exact hasKey (isEmpty_iff.mpr (length_eq_zero_iff.mp keyLength.symm))
      · intro ordinal member
        rcases keyColumns ordinal member with isNil | inKey
        · cases isNil
        · obtain ⟨column, found, nonNull, keyable, named⟩ := inKey.column
          refine ⟨column, found, nonNull, keyable, ?_⟩
          cases isManaged : column.managed with
          | none => rfl
          | some _ =>
              have outside := managed column (mem_of_getElem? found)
                (by rw [isManaged]; rfl)
              exact absurd named outside.2.2
      · rintro ordinal rfl
        exact buildTenantColumn_spec builtTenant
      · rintro ordinal rfl
        exact buildSoftDelete_spec builtSoftDelete
      · intro column member isManaged
        have checked := managed column member isManaged
        exact ⟨checked.1, checked.2.1⟩
      · exact buildForeignKeys_spec
          (fun _ member => absurd member not_mem_nil) builtForeignKeys

end SlateOrm
