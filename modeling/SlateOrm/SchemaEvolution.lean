import Mathlib.Logic.Relation
import SlateOrm.RowReading

namespace SlateOrm

open List

/-!
# Rows across schema versions

A table goes from version to version by columns that are appended and columns
that are marked dropped.  A body holds the columns that were live when it was
written; a later version finds them by the versions at which columns were added
and dropped, and makes up the rest.  What it finds is what was written, but for
vectors that were cut when they were encoded, and but for columns declared for
a version that the table had not reached.
-/

/-! ## Versions of a table -/

/-- A table as the builder makes it: a later column can be made up. -/
structure TableDef.Versioned (table : TableDef) : Prop where
  built : ∃ builder : TableBuilder, builder.build = .ok table
  later : ∀ column ∈ table.columns, column.addedIn ≠ 0 →
    column.nullable = true ∨ column.default.isSome = true

/-- A column of a later version, live or dropped since. -/
structure ColumnDef.Continues (version : UInt32) (column later : ColumnDef) :
    Prop where
  type : later.type = column.type
  addedIn : later.addedIn = column.addedIn
  droppedIn : later.droppedIn = column.droppedIn ∨ (column.droppedIn = none ∧
      ∃ dropped, later.droppedIn = some dropped ∧ version < dropped)

/-- The columns of a version go on, and the others were added after it. -/
structure TableDef.Extends (older newer : TableDef) : Prop where
  known : older.schemaVersion ≤ newer.schemaVersion
  primaryKey : newer.primaryKey = older.primaryKey
  keeps : ∀ ordinal column, older.column ordinal = some column →
    ∃ later, newer.column ordinal = some later ∧
      column.Continues older.schemaVersion later
  adds : ∀ ordinal column, older.column ordinal = none →
    newer.column ordinal = some column → older.schemaVersion < column.addedIn

/-- The next version of a table. -/
structure TableDef.Evolves (older newer : TableDef) : Prop extends
    TableDef.Extends older newer where
  rises : older.schemaVersion < newer.schemaVersion
  versioned : newer.Versioned

theorem TableDef.Extends.refl
    (table : TableDef) :
    table.Extends table := by
  refine ⟨UInt32.le_refl _, rfl, ?_, ?_⟩
  · intro ordinal column found
    exact ⟨column, found, rfl, rfl, Or.inl rfl⟩
  · intro ordinal column absent found
    rw [absent] at found
    cases found

theorem TableDef.Extends.trans
    {first second third : TableDef} (before : first.Extends second)
    (after : second.Extends third) :
    first.Extends third := by
  refine ⟨UInt32.le_trans before.known after.known,
    after.primaryKey.trans before.primaryKey, ?_, ?_⟩
  · intro ordinal column found
    obtain ⟨middle, inMiddle, continues⟩ := before.keeps ordinal column found
    obtain ⟨later, inLater, goesOn⟩ := after.keeps ordinal middle inMiddle
    refine ⟨later, inLater, goesOn.type.trans continues.type,
      goesOn.addedIn.trans continues.addedIn, ?_⟩
    rcases goesOn.droppedIn with same | ⟨live, dropped, isDropped, above⟩
    · rw [same]
      exact continues.droppedIn
    · rcases continues.droppedIn with same | ⟨_, earlier, wasDropped, _⟩
      · refine Or.inr ⟨same.symm.trans live, dropped, isDropped, ?_⟩
        exact UInt32.lt_of_le_of_lt before.known above
      · rw [wasDropped] at live
        cases live
  · intro ordinal column absent found
    cases inMiddle : second.column ordinal with
    | none =>
        exact UInt32.lt_of_le_of_lt before.known
          (after.adds ordinal column inMiddle found)
    | some middle =>
        obtain ⟨later, inLater, goesOn⟩ := after.keeps ordinal middle inMiddle
        rw [found] at inLater
        cases inLater
        rw [goesOn.addedIn]
        exact before.adds ordinal middle absent inMiddle

variable {older newer : TableDef}

theorem TableDef.extends_of_evolution
    (evolution : Relation.ReflTransGen TableDef.Evolves older newer) :
    older.Extends newer := by
  induction evolution with
  | refl => exact .refl older
  | tail _ evolves ih => exact ih.trans evolves.toExtends

theorem TableDef.versioned_of_evolution
    (versioned : older.Versioned)
    (evolution : Relation.ReflTransGen TableDef.Evolves older newer) :
    newer.Versioned := by
  cases evolution with
  | refl => exact versioned
  | tail _ evolves => exact evolves.versioned

/-! ## What a later version reads -/

/-- A row that is read at a later version than it was written at. -/
structure ReadsAs (writer reader : TableDef) (row found : Row) : Prop where
  width : found.values.length = reader.columns.length
  dropped : ∀ ordinal column, reader.column ordinal = some column →
    column.isDropped = true → found.valueOrNull ordinal = .null
  survives : ∀ ordinal column, reader.column ordinal = some column →
    column.isDropped = false → (writer.column ordinal).isSome = true →
      (found.valueOrNull ordinal).canonical = (row.valueOrNull ordinal).canonical
  added : ∀ ordinal column, reader.column ordinal = some column →
    column.isDropped = false → writer.column ordinal = none →
      found.valueOrNull ordinal = column.default.getD .null

/-- A row is read back at a later version, and no body of a newer one is. -/
def Evolved (writer reader : TableDef) (row : Row) (primaryKey : List Value) : Prop :=
  (∃ found, decodeRow reader primaryKey (encodeBody writer row) = .ok found ∧
      ReadsAs writer reader row found) ∧
    ∀ (version : UInt32) (rest : Bytes), reader.schemaVersion < version →
      decodeRow reader primaryKey (ROW_FORMAT_V1 :: toBeBytes 4 version.toNat ++ rest) =
        .error (.rowFromFutureSchema reader.name version reader.schemaVersion)

theorem decodeRow_of_newer
    {table : TableDef} {version : UInt32}
    (newer : table.schemaVersion < version)
    (primaryKey : List Value) (rest : Bytes) :
    decodeRow table primaryKey (ROW_FORMAT_V1 :: toBeBytes 4 version.toNat ++ rest) =
      .error (.rowFromFutureSchema table.name version table.schemaVersion) := by
  have headerLength : (toBeBytes 4 version.toNat).length = 4 := length_toBeBytes ..
  have isVersion :
      UInt32.ofNat (fromBeBytes (toBeBytes 4 version.toNat)) = version := by
    rw [fromBeBytes_toBeBytes (by have := version.toNat_lt; omega), UInt32.ofNat_toNat]
  have longEnough : ¬(toBeBytes 4 version.toNat ++ rest).length < 4 := by
    rw [length_append, headerLength]
    omega
  rw [decodeRow, cons_append, decodeRowColumns.eq_def]
  simp only [ne_eq, not_true_eq_false, if_false, longEnough,
    take_left' headerLength, isVersion, newer, if_true]

/-- The builder gives a dropped column no default. -/
theorem TableBuilder.default_of_dropped
    {builder : TableBuilder} {table : TableDef}
    (success : builder.build = .ok table) :
    ∀ column ∈ table.columns, column.isDropped = true → column.default = none := by
  rw [TableBuilder.build] at success
  replace success := ok_of_bind success
  replace success := ok_of_bind success
  replace success := ok_of_bind success
  obtain ⟨columns, _, success⟩ := bind_eq_ok.mp success
  replace success := ok_of_bind success
  obtain ⟨_, evolves, success⟩ := bind_eq_ok.mp success
  split at success
  · cases success
  · obtain ⟨_, _, success⟩ := bind_eq_ok.mp success
    obtain ⟨_, _, success⟩ := bind_eq_ok.mp success
    obtain ⟨_, _, success⟩ := bind_eq_ok.mp success
    obtain ⟨_, _, success⟩ := bind_eq_ok.mp success
    replace success := ok_of_bind success
    obtain ⟨_, _, success⟩ := bind_eq_ok.mp success
    cases success
    intro column member isDropped
    have checked := checkEach_eq_ok evolves column member
    rw [checkEvolution] at checked
    split at checked
    · cases checked
    · rename_i notBoth
      cases isDefault : column.default with
      | none => rfl
      | some value => exact absurd ⟨isDropped, by rw [isDefault]; rfl⟩ notBoth

namespace TableDef.Extends

variable
  {writer reader : TableDef}
  (extension : writer.Extends reader)
  (wellFormed : writer.WellFormed)

include extension wellFormed

variable {ordinal : Ordinal} {column later : ColumnDef}

theorem presentAt_of_kept
    (found : writer.column ordinal = some column)
    (isLater : reader.column ordinal = some later) :
    presentAt later writer.schemaVersion = presentAt column writer.schemaVersion ∧
      notYetDropped later writer.schemaVersion = !column.isDropped := by
  obtain ⟨other, isOther, continues⟩ := extension.keeps ordinal column found
  rw [isLater] at isOther
  cases isOther
  have dropping : notYetDropped column writer.schemaVersion = !column.isDropped := by
    cases isDropped : column.isDropped with
    | true => exact notYetDropped_eq_false wellFormed found isDropped
    | false => exact notYetDropped_of_live isDropped _
  have same : notYetDropped later writer.schemaVersion =
      notYetDropped column writer.schemaVersion := by
    rcases continues.droppedIn with same | ⟨live, dropped, isDropped, above⟩
    · rw [notYetDropped, notYetDropped, same]
    · rw [notYetDropped, notYetDropped, isDropped, live]
      exact decide_eq_true above
  refine ⟨?_, same.trans dropping⟩
  rw [presentAt, presentAt, same, continues.addedIn]

omit wellFormed in
theorem presentAt_of_added
    {column : ColumnDef}
    (absent : writer.column ordinal = none)
    (found : reader.column ordinal = some column) :
    presentAt column writer.schemaVersion = false := by
  have above := extension.adds ordinal column absent found
  rw [presentAt, decide_eq_false (UInt32.not_le.mpr above), Bool.false_and]

omit wellFormed in
theorem length_le :
    writer.columns.length ≤ reader.columns.length := by
  refine Nat.le_of_not_lt (fun fewer => ?_)
  have found : writer.column reader.columns.length =
      some writer.columns[reader.columns.length] :=
    getElem?_eq_getElem fewer
  obtain ⟨later, isLater, -⟩ := extension.keeps _ _ found
  have absent : reader.column reader.columns.length = none :=
    getElem?_eq_none (Nat.le_refl _)
  rw [absent] at isLater
  cases isLater

/-- The columns that a later version expects are those the writer expects. -/
theorem filter_isExpected
    (readerWellFormed : reader.WellFormed) :
    reader.bodyColumns.filter (reader.isExpected writer.schemaVersion) =
      writer.storedColumns.filter (writer.isExpected writer.schemaVersion) := by
  obtain ⟨extra, isExtra⟩ := Nat.exists_eq_add_of_le extension.length_le
  -- Of the columns that were added since, none is expected.
  have noneAdded : ((range extra).map
      (writer.columns.length + ·)).filter (fun ordinal =>
        reader.isExpected writer.schemaVersion ordinal &&
          !reader.primaryKey.contains ordinal) = [] := by
    refine filter_eq_nil_iff.mpr ?_
    intro ordinal member
    obtain ⟨offset, inExtra, rfl⟩ := mem_map.mp member
    have inRange : writer.columns.length + offset <
        reader.columns.length := by
      rw [isExtra]
      exact Nat.add_lt_add_left (mem_range.mp inExtra) _
    have absent : writer.column (writer.columns.length + offset) = none :=
      getElem?_eq_none (Nat.le_add_right _ _)
    have found : reader.column (writer.columns.length + offset) =
        some reader.columns[writer.columns.length + offset] :=
      getElem?_eq_getElem inRange
    rw [TableDef.isExpected, found]
    simp [extension.presentAt_of_added absent found]
  rw [readerWellFormed.body, isExtra, filter_filter, range_add,
    filter_append, noneAdded, append_nil, wellFormed.stored,
    wellFormed.body, filter_filter, filter_filter]
  refine filter_congr (fun ordinal member => ?_)
  obtain ⟨column, found⟩ : ∃ column, writer.column ordinal = some column :=
    ⟨_, getElem?_eq_getElem (mem_range.mp member)⟩
  obtain ⟨later, isLater, -⟩ := extension.keeps ordinal column found
  have isColumn : writer.columns[ordinal]? = some column := found
  have onlyLive : presentAt column writer.schemaVersion = true →
      column.isDropped = false := by
    intro isPresent
    cases isDropped : column.isDropped with
    | false => rfl
    | true =>
        rw [presentAt, notYetDropped_eq_false wellFormed found isDropped,
          Bool.and_false] at isPresent
        cases isPresent
  rw [TableDef.isExpected, TableDef.isExpected, isLater, found, isColumn,
    extension.primaryKey]
  simp only [Option.any_some, (extension.presentAt_of_kept wellFormed found isLater).1]
  cases isPresent : presentAt column writer.schemaVersion with
  | false => simp
  | true => simp [onlyLive isPresent]

omit wellFormed in
theorem live_of_kept
    (found : writer.column ordinal = some column)
    (isLater : reader.column ordinal = some later)
    (isLive : later.isDropped = false) :
    column.isDropped = false := by
  obtain ⟨other, isOther, continues⟩ := extension.keeps ordinal column found
  rw [isLater] at isOther
  cases isOther
  rcases continues.droppedIn with same | ⟨_, dropped, isDropped, _⟩
  · rw [ColumnDef.isDropped, ← same]
    exact isLive
  · rw [ColumnDef.isDropped, isDropped] at isLive
    cases isLive

end TableDef.Extends

variable {table : TableDef} {column : ColumnDef} {ordinal : Ordinal}

theorem nodup_reconstructs
    (wellFormed : table.WellFormed)
    (written : UInt32) (row : Row) :
    ((table.bodyColumns.filterMap
      (table.reconstructs written none row)).map Prod.fst).Nodup := by
  have places : (table.bodyColumns.filterMap
      (table.reconstructs written none row)).map Prod.fst =
        table.bodyColumns.filter (fun ordinal =>
          (table.reconstructs written none row ordinal).isSome) := by
    rw [map_filterMap, ← filterMap_eq_filter]
    refine filterMap_congr (fun ordinal _ => ?_)
    cases isRead : table.reconstructs written none row ordinal with
    | none => simp [Option.guard, isRead]
    | some change =>
        have isPlace : change.1 = ordinal := by
          simp only [TableDef.reconstructs, isWanted, if_true,
            Option.bind_eq_some_iff, Option.map_eq_some_iff] at isRead
          obtain ⟨_, _, _, _, rfl⟩ := isRead
          rfl
        simp [Option.guard, isRead, isPlace]
  rw [places, wellFormed.body]
  exact (nodup_range.filter _).filter _

/-- What a reader puts in a column of the body. -/
theorem valueOrNull_reconstructs
    (wellFormed : table.WellFormed)
    (written : UInt32) (row : Row) (primaryKey : List Value)
    (found : table.column ordinal = some column)
    (outside : ordinal ∉ table.primaryKey) :
    Row.valueOrNull ⟨fillKey table primaryKey ((table.bodyColumns.filterMap
        (table.reconstructs written none row)).foldl
          (fun values change => values.set change.1 change.2) table.blank)⟩ ordinal =
      (column.reconstructed written (row.valueOrNull ordinal)).getD .null := by
  have inRange : ordinal < table.columns.length :=
    (List.getElem?_eq_some_iff.mp found).1
  have inBody : ordinal ∈ table.bodyColumns :=
    wellFormed.mem_bodyColumns.mpr ⟨inRange, outside⟩
  have blankWidth : ordinal < table.blank.length := by
    rw [TableDef.blank, length_replicate]
    exact inRange
  rw [valueOrNull_fillKey_of_notMem outside]
  cases isRead : column.reconstructed written (row.valueOrNull ordinal) with
  | some value =>
      have member : (ordinal, value) ∈ table.bodyColumns.filterMap
          (table.reconstructs written none row) := by
        refine mem_filterMap.mpr ⟨ordinal, inBody, ?_⟩
        simp [TableDef.reconstructs, isWanted, found, isRead]
      rw [getElem?_foldl_set_of_mem Prod.fst Prod.snd
        (nodup_reconstructs wellFormed written row) member blankWidth]
  | none =>
      rw [getElem?_foldl_set_of_notMem Prod.fst Prod.snd]
      · rw [TableDef.blank, getElem?_replicate, if_pos inRange]
        rfl
      · rintro ⟨place, value⟩ member rfl
        obtain ⟨other, _, isOther⟩ := mem_filterMap.mp member
        simp only [TableDef.reconstructs, isWanted, if_true,
          Option.bind_eq_some_iff, Option.map_eq_some_iff] at isOther
        obtain ⟨column', found', value', isRead', same⟩ := isOther
        cases same
        rw [found] at found'
        cases found'
        rw [isRead] at isRead'
        cases isRead'

theorem presentAt_of_current
    (wellFormed : table.WellFormed)
    (current : table.Current)
    (found : table.column ordinal = some column)
    (isLive : column.isDropped = false)
    (outside : ordinal ∉ table.primaryKey) :
    presentAt column table.schemaVersion = true := by
  have isColumn : table.columns[ordinal]? = some column := found
  have inBody : ordinal ∈ table.bodyColumns := wellFormed.mem_bodyColumns.mpr
      ⟨(List.getElem?_eq_some_iff.mp found).1, outside⟩
  have expected := current ordinal inBody (by
    rw [TableDef.isLive, isColumn, Option.any_some, isLive]
    rfl)
  rw [TableDef.isExpected, found] at expected
  exact expected

/-- What a later version puts in a column of the body. -/
theorem reconstructed_of_extends
    {writer reader : TableDef} (versioned : writer.Versioned)
    (readerVersioned : reader.Versioned) (extension : writer.Extends reader)
    (current : writer.Current) (row : Row)
    (found : reader.column ordinal = some column)
    (outside : ordinal ∉ reader.primaryKey) :
    column.reconstructed writer.schemaVersion (row.valueOrNull ordinal) =
      if column.isDropped then
        none
      else if (writer.column ordinal).isSome then
        some (row.valueOrNull ordinal).decoded
      else
        column.default := by
  obtain ⟨builder, built⟩ := versioned.built
  obtain ⟨readerBuilder, readerBuilt⟩ := readerVersioned.built
  have wellFormed := TableBuilder.build_wellFormed built
  have noDefault := TableBuilder.default_of_dropped readerBuilt column
    (mem_of_getElem? found)
  rw [ColumnDef.reconstructed]
  cases isDropped : column.isDropped with
  | true => simp [noDefault isDropped]
  | false =>
      cases inWriter : writer.column ordinal with
      | none =>
          simp [extension.presentAt_of_added inWriter found,
            notYetDropped_of_live isDropped]
      | some earlier =>
          have isLive := extension.live_of_kept inWriter found isDropped
          have isPresent := presentAt_of_current wellFormed current inWriter
            isLive (extension.primaryKey ▸ outside)
          simp [(extension.presentAt_of_kept wellFormed inWriter found).1, isPresent]

section

variable [Platform]

variable
  {writer reader : TableDef}
  (versioned : writer.Versioned)
  (readerVersioned : reader.Versioned)
  (extension : writer.Extends reader)
  {row : Row}
  (valid : row.validate writer = .ok ())

include versioned extension valid

/-- A body that a later version reads holds only columns of its version. -/
theorem current_of_decodeRow
    (readerVersioned : reader.Versioned) {primaryKey : List Value} {found : Row}
    (success : decodeRow reader primaryKey (encodeBody writer row) = .ok found) :
    writer.Current := by
  obtain ⟨builder, built⟩ := versioned.built
  obtain ⟨readerBuilder, readerBuilt⟩ := readerVersioned.built
  have wellFormed := TableBuilder.build_wellFormed built
  have readerWellFormed := TableBuilder.build_wellFormed readerBuilt
  have flat : ∀ value ∈ row.project writer.storedColumns, value.flat = true := by
    intro value member
    obtain ⟨ordinal, isStored, rfl⟩ := mem_map.mp member
    rw [← wellFormed.filter_isLive] at isStored
    obtain ⟨_, _, held⟩ := holds_bodyColumns wellFormed valid ordinal
      (mem_filter.mp isStored).1
    exact held.flat
  rw [decodeRow, decodeRowColumns_encodeBody_of_known
    (UInt32.not_lt.mpr extension.known),
    if_neg (by rintro ⟨⟩)] at success
  obtain ⟨⟨decoded, rest, values⟩, decodes, success⟩ := bind_eq_ok.mp success
  obtain ⟨taken, atMost, stopped⟩ := remainder_of_decodeColumns flat decodes
  dsimp only at success
  split at success
  · cases success
  · rename_i isEmpty
    have noBytes : encode ((row.project writer.storedColumns).drop taken) = [] := by
      rw [← stopped]
      simpa [TupleReader.isEmpty] using isEmpty
    have allTaken := drop_eq_nil_iff.mp (eq_nil_of_encode noBytes)
    rw [Row.project, length_map] at allTaken
    rw [extension.filter_isExpected wellFormed readerWellFormed] at atMost
    have all := filter_sublist.eq_of_length_le (Nat.le_trans allTaken atMost)
    intro ordinal member isLive
    have isStored : ordinal ∈ writer.storedColumns := by
      rw [← wellFormed.filter_isLive]
      exact mem_filter.mpr ⟨member, isLive⟩
    rw [← all] at isStored
    exact (mem_filter.mp isStored).2

/-- A body of a current table is read by a later version. -/
theorem decodeRow_of_current
    (readerVersioned : reader.Versioned) (current : writer.Current)
    (primaryKey : List Value) :
    decodeRow reader primaryKey (encodeBody writer row) =
      .ok ⟨fillKey reader primaryKey ((reader.bodyColumns.filterMap
          (reader.reconstructs writer.schemaVersion none row)).foldl
            (fun values change => values.set change.1 change.2) reader.blank)⟩ := by
  obtain ⟨builder, built⟩ := versioned.built
  obtain ⟨readerBuilder, readerBuilt⟩ := readerVersioned.built
  have wellFormed := TableBuilder.build_wellFormed built
  have readerWellFormed := TableBuilder.build_wellFormed readerBuilt
  have allExpected :
      reader.bodyColumns.filter (reader.isExpected writer.schemaVersion) =
        writer.storedColumns := by
    rw [extension.filter_isExpected wellFormed readerWellFormed]
    refine filter_eq_self.mpr ?_
    intro ordinal isStored
    rw [← wellFormed.filter_isLive] at isStored
    obtain ⟨member, isLive⟩ := mem_filter.mp isStored
    exact current ordinal member isLive
  have readable : ∀ ordinal ∈ reader.bodyColumns, ∃ column,
      reader.column ordinal = some column ∧ column.Absentable writer.schemaVersion ∧
          (presentAt column writer.schemaVersion = true →
            (row.valueOrNull ordinal).flat = true ∧
              ((row.valueOrNull ordinal).valueType = some column.type ∨
                row.valueOrNull ordinal = .null)) := by
    intro ordinal member
    obtain ⟨column, found⟩ : ∃ column, reader.column ordinal = some column :=
      ⟨_, getElem?_eq_getElem (readerWellFormed.mem_bodyColumns.mp member).1⟩
    refine ⟨column, found, ?_, ?_⟩
    · intro absent notDropped noDefault
      cases inWriter : writer.column ordinal with
      | none =>
          have above := extension.adds ordinal column inWriter found
          have isLater : column.addedIn ≠ 0 := by
            intro isZero
            rw [isZero] at above
            exact absurd above (UInt32.not_lt.mpr (UInt32.zero_le))
          rcases readerVersioned.later column (mem_of_getElem? found)
            isLater with nullable | hasDefault
          · exact nullable
          · rw [noDefault] at hasDefault
            cases hasDefault
      | some earlier =>
          obtain ⟨samePresence, sameDropping⟩ :=
            extension.presentAt_of_kept wellFormed inWriter found
          have isLive : earlier.isDropped = false := by
            rw [sameDropping] at notDropped
            simpa using notDropped
          have isPresent := presentAt_of_current wellFormed current inWriter
            isLive (fun inKey =>
              (readerWellFormed.mem_bodyColumns.mp member).2
                (extension.primaryKey ▸ inKey))
          rw [samePresence, isPresent] at absent
          cases absent
    · intro isPresent
      cases inWriter : writer.column ordinal with
      | none =>
          rw [extension.presentAt_of_added inWriter found] at isPresent
          cases isPresent
      | some earlier =>
          have held := Row.holds_of_validate wellFormed valid inWriter
          obtain ⟨later, isLater, continues⟩ := extension.keeps ordinal earlier inWriter
          rw [found] at isLater
          cases isLater
          rw [continues.type]
          exact ⟨held.flat, held.typed⟩
  obtain ⟨decoded, stop, decodes⟩ := decodeColumns_of_expected readable none
    0 0 [] reader.blank
  rw [allExpected, append_nil] at decodes
  rw [decodeRow, decodeRowColumns_encodeBody_of_known
    (UInt32.not_lt.mpr extension.known), if_neg (by rintro ⟨⟩), decodes]
  rfl

end

/-- The values of the surviving columns have no vector that is cut. -/
def SurvivorsFit (reader : TableDef) (row : Row) : Prop :=
  ∀ ordinal column, reader.column ordinal = some column →
    column.isDropped = false → (row.valueOrNull ordinal).fits = true

section

variable [Platform]

variable
  {writer reader : TableDef}
  (versioned : writer.Versioned)
  (readerVersioned : reader.Versioned)
  (extension : writer.Extends reader)
  {row : Row}
  (valid : row.validate writer = .ok ())
  {primaryKey : List Value}
  (sameKey : primaryKey.map Value.canonical =
    (row.primaryKeyValues writer).map Value.canonical)

include versioned readerVersioned extension valid sameKey

/-- A row is read as it was written exactly when its survivors fit. -/
theorem readsAs_iff
    (current : writer.Current) {found : Row}
    (success : decodeRow reader primaryKey (encodeBody writer row) = .ok found) :
    ReadsAs writer reader row found ↔ SurvivorsFit reader row := by
  obtain ⟨builder, built⟩ := versioned.built
  obtain ⟨readerBuilder, readerBuilt⟩ := readerVersioned.built
  have wellFormed := TableBuilder.build_wellFormed built
  have readerWellFormed := TableBuilder.build_wellFormed readerBuilt
  have outsideKey : ∀ ordinal column,
      reader.column ordinal = some column → ordinal ∉ reader.primaryKey →
        found.valueOrNull ordinal = (column.reconstructed writer.schemaVersion
            (row.valueOrNull ordinal)).getD .null := by
    intro ordinal column isColumn outside
    rw [decodeRow_of_current versioned extension valid readerVersioned
      current] at success
    cases success
    exact valueOrNull_reconstructs readerWellFormed _ row primaryKey isColumn outside
  have inKey : ∀ ordinal ∈ reader.primaryKey, (found.valueOrNull ordinal).canonical =
          (row.valueOrNull ordinal).canonical ∧
        (row.valueOrNull ordinal).fits = true := by
    intro ordinal member
    have inWriter : ordinal ∈ writer.primaryKey := extension.primaryKey ▸ member
    refine ⟨?_, ?_⟩
    · rw [Row.primaryKeyValues, ← extension.primaryKey] at sameKey
      obtain ⟨values, isWide, rfl⟩ := exists_fillKey_of_decodeRowColumns success
      exact canonical_valueOrNull_fillKey readerWellFormed sameKey isWide member
    · obtain ⟨column, isColumn, _, isKeyable, _⟩ := wellFormed.key ordinal inWriter
      exact Value.fits_of_isKeyable ((Row.holds_of_validate wellFormed valid
        isColumn).isKeyable isKeyable)
  have width : found.values.length = reader.columns.length :=
    length_decodeRowColumns success
  have keyLive : ∀ ordinal column, reader.column ordinal = some column →
      ordinal ∈ reader.primaryKey → column.isDropped = false ∧
        (writer.column ordinal).isSome = true := by
    intro ordinal column isColumn member
    obtain ⟨keyColumn, isKey, _, isKeyable, _⟩ := readerWellFormed.key ordinal member
    rw [isColumn] at isKey
    cases isKey
    refine ⟨isKeyable.live, ?_⟩
    obtain ⟨earlier, inWriter, _⟩ :=
      wellFormed.key ordinal (extension.primaryKey ▸ member)
    rw [inWriter]
    rfl
  constructor
  · intro reads ordinal column isColumn isLive
    by_cases key : ordinal ∈ reader.primaryKey
    · exact (inKey ordinal key).2
    · cases inWriter : writer.column ordinal with
      | none =>
          have isNull : row.valueOrNull ordinal = .null := by
            have beyond : writer.columns.length ≤ ordinal :=
              getElem?_eq_none_iff.mp inWriter
            rw [Row.valueOrNull, Row.get, getElem?_eq_none
              (by rw [Row.width_of_validate valid]; exact beyond)]
            rfl
          rw [isNull]
          rfl
      | some earlier =>
          have same := reads.survives ordinal column isColumn isLive
            (by rw [inWriter]; rfl)
          rw [outsideKey ordinal column isColumn key,
            reconstructed_of_extends versioned readerVersioned extension
              current row isColumn key, isLive, inWriter] at same
          refine Value.fits_of_coded ?_
          simpa using same
  · intro fits
    refine ⟨width, ?_, ?_, ?_⟩
    · intro ordinal column isColumn isDropped
      by_cases key : ordinal ∈ reader.primaryKey
      · rw [(keyLive ordinal column isColumn key).1] at isDropped
        cases isDropped
      · rw [outsideKey ordinal column isColumn key, reconstructed_of_extends versioned
          readerVersioned extension current row isColumn key, isDropped]
        rfl
    · intro ordinal column isColumn isLive isKept
      by_cases key : ordinal ∈ reader.primaryKey
      · exact (inKey ordinal key).1
      · rw [outsideKey ordinal column isColumn key, reconstructed_of_extends versioned
          readerVersioned extension current row isColumn key, isLive, isKept]
        simp [Value.coded_of_fits (fits ordinal column isColumn isLive)]
    · intro ordinal column isColumn isLive absent
      by_cases key : ordinal ∈ reader.primaryKey
      · have isKept := (keyLive ordinal column isColumn key).2
        rw [absent] at isKept
        cases isKept
      · rw [outsideKey ordinal column isColumn key, reconstructed_of_extends versioned
          readerVersioned extension current row isColumn key, isLive, absent]
        rfl

/--
A row is read back at a later version exactly when the version that wrote it
had reached its live columns, and no surviving vector was cut.
-/
theorem evolved_iff_of_extends :
    Evolved writer reader row primaryKey ↔
      writer.Current ∧ SurvivorsFit reader row := by
  constructor
  · rintro ⟨⟨found, success, reads⟩, -⟩
    have current := current_of_decodeRow versioned extension valid
      readerVersioned success
    exact ⟨current, (readsAs_iff versioned readerVersioned extension valid
      sameKey current success).mp reads⟩
  · rintro ⟨current, fits⟩
    have success := decodeRow_of_current versioned extension valid
      readerVersioned current primaryKey
    refine ⟨⟨_, success, ?_⟩, ?_⟩
    · exact (readsAs_iff versioned readerVersioned extension valid sameKey
        current success).mpr fits
    · intro version rest newer
      exact decodeRow_of_newer newer primaryKey rest

end

/--
In a chain of versions, a row that one version wrote is read back at a later
one exactly when the writing version had reached its live columns, and no
surviving vector was cut.
-/
theorem evolved_iff
    [Platform] {writer reader : TableDef} (versioned : writer.Versioned)
    (evolution : Relation.ReflTransGen TableDef.Evolves writer reader)
    {row : Row}
    (valid : row.validate writer = .ok ())
    {primaryKey : List Value}
    (sameKey : primaryKey.map Value.canonical =
      (row.primaryKeyValues writer).map Value.canonical) :
    Evolved writer reader row primaryKey ↔ writer.Current ∧ SurvivorsFit reader row :=
  evolved_iff_of_extends versioned (TableDef.versioned_of_evolution versioned evolution)
    (TableDef.extends_of_evolution evolution) valid sameKey

/-! ## A table of reviews -/

/-- A table of reviews, in its first version. -/
def reviewsBuilder : TableBuilder where
  id := 1
  name := "reviews"
  columns := [
    { name := "id", type := .i64 },
    { name := "draft", type := .str },
    { name := "gist", type := .vector }]
  primaryKey := ["id"]

/-- A later version, with a rating and without the draft. -/
def ratedBuilder : TableBuilder :=
  { reviewsBuilder with
    columns := reviewsBuilder.columns ++
      [{ name := "rating", type := .i64, addedIn := 1 }]
    schemaVersion := 2
    changes := [.default "rating" (.i64 3), .dropped "draft" 2] }

/-- The table of the first version. -/
def reviews : TableDef where
  id := 1
  name := "reviews"
  columns := [ ⟨"id", .i64, false, 0, none, none, [], 0, none, none⟩,
    ⟨"draft", .str, false, 0, none, none, [], 0, none, none⟩,
    ⟨"gist", .vector, false, 0, none, none, [], 0, none, none⟩]
  primaryKey := [0]
  bodyColumns := [1, 2]
  storedColumns := [1, 2]
  indexes := []
  checks := []
  foreignKeys := []
  tenantColumn := none
  softDelete := none
  schemaVersion := 0

/-- The table of the later version. -/
def rated : TableDef :=
  { reviews with
    columns := [ ⟨"id", .i64, false, 0, none, none, [], 0, none, none⟩,
      ⟨"draft", .str, false, 0, some 2, none, [], 0, none, none⟩,
      ⟨"gist", .vector, false, 0, none, none, [], 0, none, none⟩,
      ⟨"rating", .i64, false, 1, none, some (.i64 3), [], 0, none, none⟩]
    bodyColumns := [1, 2, 3]
    storedColumns := [2, 3]
    schemaVersion := 2 }

theorem versioned_reviews : reviews.Versioned := by
  refine ⟨⟨reviewsBuilder, rfl⟩, ?_⟩
  intro column member isLater
  have first : column.addedIn = 0 := by
    simp only [reviews, mem_cons, not_mem_nil, or_false] at member
    rcases member with rfl | rfl | rfl
    · rfl
    · rfl
    · rfl
  exact absurd first isLater

theorem evolves_reviews : reviews.Evolves rated where
  known := by decide
  primaryKey := rfl
  keeps := by
    intro ordinal column found
    rcases ordinal with _ | _ | _ | ordinal
    · cases found
      exact ⟨_, rfl, rfl, rfl, Or.inl rfl⟩
    · cases found
      exact ⟨_, rfl, rfl, rfl, Or.inr ⟨rfl, 2, rfl, by decide⟩⟩
    · cases found
      exact ⟨_, rfl, rfl, rfl, Or.inl rfl⟩
    · cases found
  adds := by
    intro ordinal column absent found
    rcases ordinal with _ | _ | _ | _ | ordinal
    · cases absent
    · cases absent
    · cases absent
    · cases found
      decide
    · cases found
  rises := by decide
  versioned := by
    refine ⟨⟨ratedBuilder, rfl⟩, ?_⟩
    intro column member isLater
    simp only [rated, mem_cons, not_mem_nil, or_false] at member
    rcases member with rfl | rfl | rfl | rfl
    · exact absurd rfl isLater
    · exact absurd rfl isLater
    · exact absurd rfl isLater
    · exact Or.inr rfl

/-- A review. -/
def review (gist : List F32) : Row := ⟨[.i64 1, .str "d", .vector gist]⟩

theorem current_reviews : reviews.Current := by
  intro ordinal member isLive
  simp only [reviews, mem_cons, not_mem_nil, or_false] at member
  rcases member with rfl | rfl
  · rfl
  · rfl

/-- A review with a short gist is read back without its draft. -/
theorem evolved_review :
    Evolved reviews rated (review [0]) [.i64 1] := by
  let _ : Platform := asciiPlatform
  refine (evolved_iff versioned_reviews
    (.single evolves_reviews) rfl rfl).mpr ⟨current_reviews, ?_⟩
  intro ordinal column found isLive
  rcases ordinal with _ | _ | _ | ordinal
  · rfl
  · rfl
  · rfl
  · rfl

/-- A gist with more elements than a count can describe is cut. -/
theorem not_evolved_overlong :
    ¬∀ (_ : Platform) (writer reader : TableDef), writer.Versioned →
      Relation.ReflTransGen TableDef.Evolves writer reader →
        ∀ row : Row, row.validate writer = .ok () → ∀ primaryKey : List Value,
            primaryKey.map Value.canonical =
                (row.primaryKeyValues writer).map Value.canonical →
              Evolved writer reader row primaryKey := by
  intro always
  let _ : Platform := asciiPlatform
  have valid : ∀ gist, (review gist).validate reviews = .ok () := fun _ => rfl
  have sameKey : ∀ gist, [Value.i64 1].map Value.canonical =
      ((review gist).primaryKeyValues reviews).map Value.canonical :=
    fun _ => rfl
  have short : ∀ gist : List F32, gist.length ≤ u32Max := by
    intro gist
    have evolved := always asciiPlatform reviews reviews versioned_reviews
      .refl (review gist) (valid gist) [.i64 1] (sameKey gist)
    have fits := ((evolved_iff_of_extends versioned_reviews versioned_reviews
      (.refl reviews) (valid gist) (sameKey gist)).mp evolved).2
    exact of_decide_eq_true (fits 2 _ rfl rfl)
  have long := short (replicate (u32Max + 1) 0)
  rw [length_replicate] at long
  exact absurd long (Nat.not_succ_le_self _)

end SlateOrm
