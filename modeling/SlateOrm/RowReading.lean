import SlateOrm.RowCode

namespace SlateOrm

open List

/-!
# Reading rows back

A body holds the live columns outside the primary key, one after the other.
Where all of them belong to the schema's version, reading a body gives back
what was written.  Where one is declared for a later version, the body holds
more than a reader expects, and no reader accepts it.
-/

/-! ## Widths -/

theorem length_foldl_set
    {α : Type} (place : α → Ordinal) (value : α → Value) (changes : List α)
    (values : List Value) :
    (changes.foldl (fun values change =>
      values.set (place change) (value change)) values).length =
      values.length := by
  induction changes generalizing values with
  | nil => rfl
  | cons change rest ih => rw [foldl_cons, ih, length_set]

@[simp] theorem length_fillKey
    (table : TableDef) (primaryKey values : List Value) :
    (fillKey table primaryKey values).length = values.length :=
  length_foldl_set Prod.fst Prod.snd _ _

variable {table : TableDef} {wanted : Option ColumnSet}
  {ordinals : List Ordinal} {written : UInt32} {row : Row} {values : List Value}
  {reader : TupleReader}

/-- Decoding columns keeps a row's width. -/
theorem length_decodeColumns
    {decoded decoded' : Nat} {reader reader' : TupleReader}
    {values values' : List Value}
    (success : decodeColumns table written wanted ordinals decoded reader
      values = .ok (decoded', reader', values')) :
    values'.length = values.length := by
  induction ordinals generalizing decoded reader values with
  | nil =>
      cases success
      rfl
  | cons ordinal rest ih =>
      rw [decodeColumns] at success
      split at success
      · exact ih success
      · split at success
        · split at success
          · split at success
            · rw [ih success]
              split
              · exact length_set
              · rfl
            · split at success
              · cases success
              · exact ih success
          · exact ih success
        · split at success
          · split at success
            · cases success
            · exact ih success
          · split at success
            · cases success
            · rw [ih success, length_set]

theorem length_decodeRowColumns
    {primaryKey : List Value} {body : Bytes}
    (success : decodeRowColumns table primaryKey body wanted = .ok row) :
    row.values.length = table.columns.length := by
  rw [decodeRowColumns.eq_def] at success
  split at success
  · cases success
  · split at success
    · cases success
    · split at success
      · cases success
      · dsimp only at success
        split at success
        · cases success
        · split at success
          · cases success
            rw [length_fillKey, length_replicate]
          · obtain ⟨⟨decoded, reader, values⟩, decodes, success⟩ :=
              bind_eq_ok.mp success
            split at success
            · cases success
            · cases success
              rw [length_fillKey, length_decodeColumns decodes, length_replicate]

/-! ## Values set one after the other -/

theorem getElem?_foldl_set_of_notMem
    {α : Type} (place : α → Ordinal) (value : α → Value) {changes : List α}
    {ordinal : Ordinal}
    (absent : ∀ change ∈ changes, place change ≠ ordinal)
    (values : List Value) :
    (changes.foldl (fun values change =>
      values.set (place change) (value change)) values)[ordinal]? =
      values[ordinal]? := by
  induction changes generalizing values with
  | nil => rfl
  | cons change rest ih =>
      rw [foldl_cons, ih (fun other member => absent other (mem_cons_of_mem _ member)),
        getElem?_set_ne (absent change (mem_cons_self ..))]

theorem getElem?_foldl_set_of_mem
    {α : Type} (place : α → Ordinal) (value : α → Value) {changes : List α}
    {change : α} (distinct : (changes.map place).Nodup)
    (member : change ∈ changes)
    (inRange : place change < values.length) :
    (changes.foldl (fun values change =>
      values.set (place change) (value change)) values)[place change]? =
      some (value change) := by
  induction changes generalizing values with
  | nil => cases member
  | cons first rest ih =>
      rw [map_cons, nodup_cons] at distinct
      rw [foldl_cons]
      rcases mem_cons.mp member with rfl | inRest
      · rw [getElem?_foldl_set_of_notMem place value]
        · exact getElem?_set_self inRange
        · intro other otherMember samePlace
          exact distinct.1 (mem_map.mpr ⟨other, otherMember, samePlace⟩)
      · exact ih distinct.2 inRest (by rw [length_set]; exact inRange)

/-! ## Columns of a body -/

@[simp] theorem Value.canonical_decoded
    (value : Value) :
    value.decoded.canonical = value.coded := by
  cases value <;> first | rfl | exact Value.canonical_canonical _

/-- A column outside the body of later versions. -/
def TableDef.isLive (table : TableDef) (ordinal : Ordinal) : Bool :=
  !(table.columns[ordinal]?).any ColumnDef.isDropped

/-- A column that a reader expects in a body of a version. -/
def TableDef.isExpected (table : TableDef) (version : UInt32)
    (ordinal : Ordinal) : Bool :=
  (table.column ordinal).any (fun column => presentAt column version)

/-- Values filled in as a reader makes them of a row. -/
def Row.readInto (row : Row) (ordinals : List Ordinal)
    (values : List Value) : List Value :=
  ordinals.foldl (fun values ordinal =>
      values.set ordinal (row.valueOrNull ordinal).decoded) values

theorem notYetDropped_eq_false
    (wellFormed : table.WellFormed)
    {ordinal : Ordinal} {column : ColumnDef}
    (found : table.column ordinal = some column)
    (isDropped : column.isDropped = true) :
    notYetDropped column table.schemaVersion = false := by
  obtain ⟨version, dropped⟩ := Option.isSome_iff_exists.mp isDropped
  have atMost := wellFormed.dropped column (mem_of_getElem? found) version dropped
  rw [notYetDropped, dropped]
  exact decide_eq_false (UInt32.not_lt.mpr atMost)

theorem notYetDropped_of_live
    {column : ColumnDef}
    (isLive : column.isDropped = false)
    (version : UInt32) :
    notYetDropped column version = true := by
  rw [notYetDropped, Option.isSome_eq_false_iff.mp isLive |>
    Option.isNone_iff_eq_none.mp]

theorem encode_project_cons
    (row : Row) (ordinal : Ordinal) (ordinals : List Ordinal) (rest : Bytes) :
    encode (row.project (ordinal :: ordinals)) ++ rest =
      encodeValue .asc (row.valueOrNull ordinal) ++
        (encode (row.project ordinals) ++ rest) := by
  rw [Row.project, map_cons, encode, encodeWith, append_assoc]
  rfl

/-- What a reader puts in a column, given the value that was written. -/
def ColumnDef.reconstructed (column : ColumnDef) (written : UInt32)
    (value : Value) : Option Value :=
  if presentAt column written then
    if column.isDropped then none else some value.decoded
  else if notYetDropped column written then
    column.default
  else
    none

/-- The columns that a reader fills in, with the values it puts there. -/
def TableDef.reconstructs (table : TableDef) (written : UInt32)
    (wanted : Option ColumnSet) (row : Row) (ordinal : Ordinal) :
    Option (Ordinal × Value) :=
  if isWanted wanted ordinal then
    (table.column ordinal).bind (fun column =>
      (column.reconstructed written (row.valueOrNull ordinal)).map
        (fun value => (ordinal, value)))
  else
    none

/-- A column that a body of a version need not hold. -/
def ColumnDef.Absentable (column : ColumnDef) (written : UInt32) : Prop :=
  presentAt column written = false → notYetDropped column written = true →
    column.default = none → column.nullable = true

/--
The columns that a reader expects are read back from their encoding, and the
others are made up.
-/
theorem decodeColumns_of_expected
    (readable : ∀ ordinal ∈ ordinals, ∃ column,
      table.column ordinal = some column ∧ column.Absentable written ∧
        (presentAt column written = true → (row.valueOrNull ordinal).flat = true ∧
            ((row.valueOrNull ordinal).valueType = some column.type ∨
              row.valueOrNull ordinal = .null)))
    (wanted : Option ColumnSet) (decoded pos : Nat) (rest : Bytes)
    (values : List Value) :
    ∃ decoded' stop, decodeColumns table written wanted ordinals decoded
          ⟨pos, encode (row.project
            (ordinals.filter (table.isExpected written))) ++ rest⟩ values =
        .ok (decoded', ⟨stop, rest⟩,
          (ordinals.filterMap (table.reconstructs written wanted row)).foldl
            (fun values change => values.set change.1 change.2) values) := by
  induction ordinals generalizing decoded pos values with
  | nil => exact ⟨decoded, pos, rfl⟩
  | cons ordinal others ih =>
      obtain ⟨column, found, absentable, held⟩ := readable ordinal (mem_cons_self ..)
      have later := ih (fun other member => readable other (mem_cons_of_mem _ member))
      have isExpected : table.isExpected written ordinal =
          presentAt column written := by
        rw [TableDef.isExpected, found]
        rfl
      have reconstructs : table.reconstructs written wanted row ordinal =
          if isWanted wanted ordinal then
            (column.reconstructed written (row.valueOrNull ordinal)).map
              (fun value => (ordinal, value))
          else
            none := by
        rw [TableDef.reconstructs, found]
        rfl
      -- What is left out of the row is left out of the changes.
      have leaves (nothing : column.reconstructed written
            (row.valueOrNull ordinal) = none ∨
          isWanted wanted ordinal = false) :
          (ordinal :: others).filterMap (table.reconstructs written wanted row) =
            others.filterMap (table.reconstructs written wanted row) := by
        refine filterMap_cons_none ?_
        rw [reconstructs]
        rcases nothing with nothing | nothing
        · rw [nothing, Option.map_none, ite_self]
        · rw [nothing, if_neg (by decide)]
      have sets (value : Value) (isValue : column.reconstructed written
            (row.valueOrNull ordinal) = some value)
          (asked : isWanted wanted ordinal = true) :
          (ordinal :: others).filterMap (table.reconstructs written wanted row) =
            (ordinal, value) ::
              others.filterMap (table.reconstructs written wanted row) := by
        refine filterMap_cons_some ?_
        rw [reconstructs, isValue, if_pos asked, Option.map_some]
      rw [decodeColumns, found]
      cases isPresent : presentAt column written with
      | false =>
          have notExpected : ¬table.isExpected written ordinal = true := by
            rw [isExpected, isPresent]
            decide
          rw [filter_cons_of_neg notExpected]
          simp only [isPresent, Bool.not_false, if_true]
          rw [ColumnDef.reconstructed, isPresent] at leaves sets
          cases notDropped : notYetDropped column written with
          | false =>
              rw [leaves (.inl (by simp [notDropped]))]
              simp only [Bool.false_eq_true, if_false]
              exact later decoded pos values
          | true =>
              simp only [if_true]
              cases isDefault : column.default with
              | none =>
                  rw [leaves (.inl (by simp [isDefault]))]
                  simp only [absentable isPresent notDropped isDefault,
                    Bool.not_true, Bool.false_eq_true, if_false]
                  exact later decoded pos values
              | some default =>
                  cases asked : isWanted wanted ordinal with
                  | false =>
                      rw [leaves (.inr asked)]
                      exact later decoded pos values
                  | true =>
                      rw [sets default (by simp [notDropped, isDefault]) asked]
                      exact later decoded pos (values.set ordinal default)
      | true =>
          have expected : table.isExpected written ordinal = true := by
            rw [isExpected, isPresent]
          obtain ⟨flat, typed⟩ := held isPresent
          rw [filter_cons_of_pos expected, encode_project_cons]
          simp only [isPresent, Bool.not_true, Bool.false_eq_true, if_false]
          rw [ColumnDef.reconstructed, isPresent] at leaves sets
          obtain ⟨between, skipped⟩ := TupleReader.skip_skips .asc
            (row.valueOrNull ordinal) pos (encode (row.project
            (others.filter (table.isExpected written))) ++ rest) flat
          cases isDropped : column.isDropped with
          | true =>
              rw [leaves (.inl (by simp [isDropped]))]
              simp only [Bool.true_or, if_true, skipped]
              exact later (decoded + 1) between values
          | false =>
              simp only [Bool.false_or]
              cases asked : isWanted wanted ordinal with
              | false =>
                  rw [leaves (.inr asked)]
                  simp only [Bool.not_false, if_true, skipped]
                  exact later (decoded + 1) between values
              | true =>
                  obtain ⟨stop, read⟩ := TupleReader.read_reads .asc
                    (row.valueOrNull ordinal) column.type pos
                    (encode (row.project (others.filter
                    (table.isExpected written))) ++ rest) flat typed
                  rw [sets _ (if_neg (ne_true_of_eq_false isDropped)) asked]
                  simp only [Bool.not_true, Bool.false_eq_true, if_false, read]
                  exact later (decoded + 1) stop _

/-- What a column's code can be read back from. -/
structure ColumnDef.Codes (column : ColumnDef) (value : Value) : Prop where
  typed : value.valueType = some column.type ∨ value = .null
  flat : value.flat = true

/-- The live columns of a row are read back from their encoding. -/
theorem decodeColumns_reads
    (wellFormed : table.WellFormed)
    (holds : ∀ ordinal ∈ ordinals, ∃ column, table.column ordinal = some column ∧
        column.Codes (row.valueOrNull ordinal))
    (expected : ∀ ordinal ∈ ordinals, table.isLive ordinal = true →
      table.isExpected table.schemaVersion ordinal = true)
    (wanted : Option ColumnSet) (decoded pos : Nat) (rest : Bytes)
    (values : List Value) :
    ∃ decoded' stop, decodeColumns table table.schemaVersion wanted ordinals decoded
          ⟨pos, encode (row.project (ordinals.filter table.isLive)) ++ rest⟩
          values =
        .ok (decoded', ⟨stop, rest⟩, row.readInto ((ordinals.filter table.isLive).filter
            (isWanted wanted)) values) := by
  -- At the schema's version, the columns that are expected are the live ones.
  have presence : ∀ ordinal ∈ ordinals, ∀ column, table.column ordinal = some column →
        table.isLive ordinal = !column.isDropped ∧
          presentAt column table.schemaVersion = !column.isDropped := by
    intro ordinal member column found
    have liveness : table.isLive ordinal = !column.isDropped := by
      have isColumn : table.columns[ordinal]? = some column := found
      rw [TableDef.isLive, isColumn]
      rfl
    refine ⟨liveness, ?_⟩
    cases isDropped : column.isDropped with
    | true =>
        rw [presentAt, notYetDropped_eq_false wellFormed found isDropped,
          Bool.and_false]
        rfl
    | false =>
        have here := expected ordinal member (by rw [liveness, isDropped]; rfl)
        rw [TableDef.isExpected, found] at here
        exact here
  have sameFilter : ordinals.filter (table.isExpected table.schemaVersion) =
      ordinals.filter table.isLive := by
    refine filter_congr (fun ordinal member => ?_)
    obtain ⟨column, found, -⟩ := holds ordinal member
    obtain ⟨liveness, isPresent⟩ := presence ordinal member column found
    rw [TableDef.isExpected, found, liveness, ← isPresent]
    rfl
  have sameChanges : ordinals.filterMap
          (table.reconstructs table.schemaVersion wanted row) =
        ((ordinals.filter table.isLive).filter (isWanted wanted)).map
          (fun ordinal => (ordinal, (row.valueOrNull ordinal).decoded)) := by
    rw [filter_filter, ← filterMap_eq_filter, map_filterMap]
    refine filterMap_congr (fun ordinal member => ?_)
    obtain ⟨column, found, -⟩ := holds ordinal member
    obtain ⟨liveness, isPresent⟩ := presence ordinal member column found
    have gone : column.isDropped = true →
        notYetDropped column table.schemaVersion = false :=
      notYetDropped_eq_false wellFormed found
    rw [TableDef.reconstructs, found]
    cases asked : isWanted wanted ordinal with
    | false => simp [Option.guard, asked]
    | true =>
        cases isDropped : column.isDropped with
        | false =>
            simp [Option.guard, asked, ColumnDef.reconstructed, isPresent,
              liveness, isDropped]
        | true =>
            simp [Option.guard, asked, ColumnDef.reconstructed, isPresent,
              liveness, isDropped, gone isDropped]
  have readable : ∀ ordinal ∈ ordinals, ∃ column, table.column ordinal = some column ∧
        column.Absentable table.schemaVersion ∧
          (presentAt column table.schemaVersion = true →
            (row.valueOrNull ordinal).flat = true ∧
              ((row.valueOrNull ordinal).valueType = some column.type ∨
                row.valueOrNull ordinal = .null)) := by
    intro ordinal member
    obtain ⟨column, found, held⟩ := holds ordinal member
    refine ⟨column, found, ?_, fun _ => ⟨held.flat, held.typed⟩⟩
    intro absent notDropped
    rw [(presence ordinal member column found).2] at absent
    have isDropped : column.isDropped = true := by simpa using absent
    rw [notYetDropped_eq_false wellFormed found isDropped] at notDropped
    cases notDropped
  have decodes := decodeColumns_of_expected readable wanted decoded pos rest values
  rw [sameFilter, sameChanges, foldl_map] at decodes
  exact decodes

/-! ## Columns that no reader expects -/

theorem remainder_of_read
    {type : ValueType} {pos : Nat} {found : Value}
    (read : TupleReader.read ⟨pos, encode values⟩ type .asc = .ok (found, reader)) :
    reader.remainder = encode (values.drop 1) := by
  cases values with
  | nil => cases read
  | cons value rest => exact (TupleReader.read_spec read).2

theorem remainder_of_skip
    (flat : ∀ value ∈ values, value.flat = true)
    {pos : Nat}
    (skip : TupleReader.skip ⟨pos, encode values⟩ .asc = .ok reader) :
    reader.remainder = encode (values.drop 1) := by
  cases values with
  | nil => cases skip
  | cons value rest =>
      obtain ⟨stop, skips⟩ := TupleReader.skip_skips .asc value pos
        (encode rest) (flat value (mem_cons_self ..))
      have same := skips.symm.trans skip
      cases same
      rfl

/-- A reader takes no more elements than it expects columns. -/
theorem remainder_of_decodeColumns
    (flat : ∀ value ∈ values, value.flat = true)
    {decoded decoded' pos : Nat} {filled filled' : List Value}
    (success : decodeColumns table written wanted ordinals decoded
      ⟨pos, encode values⟩ filled = .ok (decoded', reader, filled')) :
    ∃ taken, taken ≤ (ordinals.filter (table.isExpected written)).length ∧
      reader.remainder = encode (values.drop taken) := by
  induction ordinals generalizing values decoded pos filled with
  | nil =>
      cases success
      exact ⟨0, Nat.le_refl 0, rfl⟩
  | cons ordinal others ih =>
      have skipped : ∀ {decoded filled},
          decodeColumns table written wanted others decoded
            ⟨pos, encode values⟩ filled = .ok (decoded', reader, filled') →
          ∃ taken, taken ≤ ((ordinal :: others).filter
              (table.isExpected written)).length ∧
            reader.remainder = encode (values.drop taken) := by
        intro decoded filled success
        obtain ⟨taken, atMost, stopped⟩ := ih flat success
        refine ⟨taken, Nat.le_trans atMost ?_, stopped⟩
        exact ((sublist_cons_self ordinal others).filter _).length_le
      rw [decodeColumns] at success
      split at success
      · exact skipped success
      · next column found =>
          split at success
          · split at success
            · split at success
              · exact skipped success
              · split at success
                · cases success
                · exact skipped success
            · exact skipped success
          · next isPresent =>
              have isExpected : table.isExpected written ordinal = true := by
                rw [TableDef.isExpected, found]
                simpa using isPresent
              -- One element is taken, whatever becomes of it.
              have taken : ∀ {decoded filled} {next : TupleReader},
                  next.remainder = encode (values.drop 1) →
                  decodeColumns table written wanted others decoded next
                    filled = .ok (decoded', reader, filled') →
                  ∃ taken, taken ≤ ((ordinal :: others).filter
                      (table.isExpected written)).length ∧
                    reader.remainder = encode (values.drop taken) := by
                rintro decoded filled ⟨stop, remainder⟩ rfl success
                obtain ⟨taken, atMost, stopped⟩ := ih (fun value member => flat
                  value (mem_of_mem_drop member)) success
                refine ⟨1 + taken, ?_, ?_⟩
                · rw [filter_cons_of_pos isExpected, length_cons]
                  omega
                · rw [stopped, drop_drop]
              split at success
              · split at success
                · cases success
                · next skip => exact taken (remainder_of_skip flat skip) success
              · split at success
                · cases success
                · next read => exact taken (remainder_of_read read) success

theorem eq_nil_of_encode
    (isEmpty : encode values = []) :
    values = [] := by
  cases values with
  | nil => rfl
  | cons value rest =>
      exact absurd (append_eq_nil_iff.mp isEmpty).1 (encodeValue_ne_nil _ value)

/-! ## Whole rows -/

/-- Every live column of a body belongs to the schema's version. -/
def TableDef.Current (table : TableDef) : Prop :=
  ∀ ordinal ∈ table.bodyColumns, table.isLive ordinal = true →
    table.isExpected table.schemaVersion ordinal = true

/-- A row without values. -/
def TableDef.blank (table : TableDef) : List Value :=
  List.replicate table.columns.length .null

/-- Reading a body that a known version wrote is reading its columns. -/
theorem decodeRowColumns_encodeBody_of_known
    {writer reader : TableDef}
    (known : ¬reader.schemaVersion < writer.schemaVersion)
    (primaryKey : List Value) (row : Row) (wanted : Option ColumnSet) :
    decodeRowColumns reader primaryKey (encodeBody writer row) wanted =
      if wanted.any (fun set => !reader.bodyColumns.any (fun ordinal =>
            decide (ordinal ∈ set))) then
        .ok ⟨fillKey reader primaryKey reader.blank⟩
      else (do
        let (decoded, rest, values) ←
          decodeColumns reader writer.schemaVersion wanted reader.bodyColumns
            0 ⟨0, encode (row.project writer.storedColumns)⟩ reader.blank
        if !rest.isEmpty then
          .error (.rowDecode reader.name (.trailingBytes decoded rest.remainder.length))
        else
          .ok ⟨fillKey reader primaryKey values⟩) := by
  have headerLength : (toBeBytes 4 writer.schemaVersion.toNat).length = 4 :=
    length_toBeBytes ..
  have version : UInt32.ofNat (fromBeBytes
        (toBeBytes 4 writer.schemaVersion.toNat)) = writer.schemaVersion := by
    rw [fromBeBytes_toBeBytes (by have := writer.schemaVersion.toNat_lt; omega),
      UInt32.ofNat_toNat]
  have longEnough : ¬(toBeBytes 4 writer.schemaVersion.toNat ++
      encode (row.project writer.storedColumns)).length < 4 := by
    rw [length_append, headerLength]
    omega
  rw [encodeBody, cons_append, decodeRowColumns.eq_def]
  simp only [ne_eq, not_true_eq_false, if_false, longEnough,
    take_left' headerLength, drop_left' headerLength, version, known]
  rfl

theorem decodeRowColumns_encodeBody
    (table : TableDef) (primaryKey : List Value) (row : Row)
    (wanted : Option ColumnSet) :
    decodeRowColumns table primaryKey (encodeBody table row) wanted =
      if wanted.any (fun set => !table.bodyColumns.any (fun ordinal =>
            decide (ordinal ∈ set))) then
        .ok ⟨fillKey table primaryKey table.blank⟩
      else (do
        let (decoded, reader, values) ←
          decodeColumns table table.schemaVersion wanted table.bodyColumns 0
            ⟨0, encode (row.project table.storedColumns)⟩ table.blank
        if !reader.isEmpty then
          .error (.rowDecode table.name
            (.trailingBytes decoded reader.remainder.length))
        else
          .ok ⟨fillKey table primaryKey values⟩) :=
  decodeRowColumns_encodeBody_of_known (UInt32.lt_irrefl _) primaryKey row wanted

theorem TableDef.WellFormed.filter_isLive
    (wellFormed : table.WellFormed) :
    table.bodyColumns.filter table.isLive = table.storedColumns :=
  wellFormed.stored.symm

theorem TableDef.WellFormed.mem_bodyColumns
    (wellFormed : table.WellFormed)
    {ordinal : Ordinal} :
    ordinal ∈ table.bodyColumns ↔
      ordinal < table.columns.length ∧ ordinal ∉ table.primaryKey := by
  rw [wellFormed.body, mem_filter, mem_range]
  simp

/-- Each column of a row's body has a code that is read back. -/
def Row.Codes (row : Row) (table : TableDef) : Prop :=
  ∀ ordinal ∈ table.bodyColumns, ∃ column, table.column ordinal = some column ∧
      column.Codes (row.valueOrNull ordinal)

section

variable [Platform]

variable
  {table : TableDef}
  (wellFormed : table.WellFormed)
  {row : Row}
  (valid : row.validate table = .ok ())

include wellFormed valid

theorem holds_bodyColumns :
    ∀ ordinal ∈ table.bodyColumns, ∃ column, table.column ordinal = some column ∧
        column.Holds (row.valueOrNull ordinal) := by
  intro ordinal member
  have inRange := (wellFormed.mem_bodyColumns.mp member).1
  have found : table.column ordinal = some table.columns[ordinal] :=
    getElem?_eq_getElem inRange
  exact ⟨_, found, Row.holds_of_validate wellFormed valid found⟩

theorem Row.codes_of_validate : row.Codes table := by
  intro ordinal member
  obtain ⟨column, found, held⟩ := holds_bodyColumns wellFormed valid ordinal member
  exact ⟨column, found, held.typed, held.flat⟩

end

section

variable
  {table : TableDef}
  (wellFormed : table.WellFormed)
  {row : Row}
  (codes : row.Codes table)

include wellFormed codes

/-- A row whose body can be read back is one of a table that is current. -/
theorem current_of_decodeRowColumns
    {primaryKey : List Value} {asked : Option ColumnSet}
    (reads : ∃ ordinal ∈ table.bodyColumns, isWanted asked ordinal = true)
    {found : Row}
    (success : decodeRowColumns table primaryKey (encodeBody table row)
      asked = .ok found) :
    table.Current := by
  have flat : ∀ value ∈ row.project table.storedColumns, value.flat = true := by
    intro value member
    obtain ⟨ordinal, isStored, rfl⟩ := mem_map.mp member
    rw [← wellFormed.filter_isLive] at isStored
    obtain ⟨_, _, held⟩ := codes ordinal (mem_filter.mp isStored).1
    exact held.flat
  have notSkipped : ¬asked.any (fun set => !table.bodyColumns.any (fun ordinal =>
        decide (ordinal ∈ set))) = true := by
    obtain ⟨ordinal, inBody, isAsked⟩ := reads
    cases asked with
    | none => simp
    | some set =>
        have inSet : ordinal ∈ set := by simpa [isWanted] using isAsked
        simpa using ⟨ordinal, inBody, inSet⟩
  rw [decodeRowColumns_encodeBody, if_neg notSkipped] at success
  obtain ⟨⟨decoded, reader, values⟩, decodes, success⟩ := bind_eq_ok.mp success
  obtain ⟨taken, atMost, stopped⟩ := remainder_of_decodeColumns flat decodes
  dsimp only at success
  split at success
  · cases success
  · next isEmpty =>
      have noBytes : encode ((row.project table.storedColumns).drop taken) = [] := by
        rw [← stopped]
        simpa [TupleReader.isEmpty] using isEmpty
      have allTaken := drop_eq_nil_iff.mp (eq_nil_of_encode noBytes)
      rw [Row.project, length_map, ← wellFormed.filter_isLive] at allTaken
      -- Every expected column is live, and there are as many of them.
      have expectedLive : table.bodyColumns.filter
          (table.isExpected table.schemaVersion) =
          (table.bodyColumns.filter table.isLive).filter
            (table.isExpected table.schemaVersion) := by
        rw [filter_filter]
        refine filter_congr (fun ordinal member => ?_)
        obtain ⟨column, isColumn, _⟩ := codes ordinal member
        have isColumn' : table.columns[ordinal]? = some column := isColumn
        rw [TableDef.isExpected, TableDef.isLive, isColumn, isColumn']
        cases isDropped : column.isDropped with
        | false => simp [isDropped]
        | true =>
            have gone := notYetDropped_eq_false wellFormed isColumn isDropped
            simp [presentAt, gone, isDropped]
      have longEnough := Nat.le_trans allTaken atMost
      rw [expectedLive] at longEnough
      have all := filter_sublist.eq_of_length_le longEnough
      intro ordinal member isLive
      have inLive : ordinal ∈ table.bodyColumns.filter table.isLive :=
        mem_filter.mpr ⟨member, isLive⟩
      rw [← all] at inLive
      exact (mem_filter.mp inLive).2

theorem decodeRowColumns_of_current
    (current : table.Current) (primaryKey : List Value)
    (wanted : Option ColumnSet) :
    decodeRowColumns table primaryKey (encodeBody table row) wanted =
      .ok ⟨fillKey table primaryKey
        (row.readInto (table.storedColumns.filter (isWanted wanted)) table.blank)⟩ := by
  rw [decodeRowColumns_encodeBody]
  split
  · next noneWanted =>
      have nothing : table.storedColumns.filter (isWanted wanted) = [] := by
        cases wanted with
        | none => cases noneWanted
        | some set =>
            have outside : ∀ ordinal ∈ table.bodyColumns, ordinal ∉ set := by
              simpa using noneWanted
            apply filter_eq_nil_iff.mpr
            intro ordinal isStored
            rw [← wellFormed.filter_isLive] at isStored
            simpa [isWanted] using outside ordinal (mem_filter.mp isStored).1
      rw [nothing]
      rfl
  · obtain ⟨decoded, stop, decodes⟩ := decodeColumns_reads wellFormed codes
      current wanted 0 0 [] table.blank
    rw [wellFormed.filter_isLive, append_nil] at decodes
    rw [decodes]
    rfl

theorem decodeRow_eq_ok_iff_of_codes
    (primaryKey : List Value) (found : Row) :
    decodeRow table primaryKey (encodeBody table row) = .ok found ↔
      table.Current ∧ found = ⟨fillKey table primaryKey
        (row.readInto table.storedColumns table.blank)⟩ := by
  have whole : table.storedColumns.filter (isWanted none) =
      table.storedColumns :=
    filter_eq_self.mpr (fun _ _ => rfl)
  constructor
  · intro success
    have current : table.Current := by
      intro ordinal inBody
      exact current_of_decodeRowColumns wellFormed codes
        ⟨ordinal, inBody, rfl⟩ success ordinal inBody
    refine ⟨current, ?_⟩
    rw [decodeRow, decodeRowColumns_of_current wellFormed codes current,
      whole] at success
    cases success
    rfl
  · rintro ⟨current, rfl⟩
    rw [decodeRow, decodeRowColumns_of_current wellFormed codes current, whole]

end

variable {table : TableDef} {wanted : Option ColumnSet}
  {primaryKey : List Value} {body : Bytes} {row : Row} {values : List Value}
  {types : List ValueType} {ordinal : Ordinal} {ordinals : List Ordinal}

theorem valueOrNull_fillKey_of_mem
    (wellFormed : table.WellFormed)
    {primaryKey values : List Value}
    (sameLength : primaryKey.length = table.primaryKey.length)
    (width : values.length = table.columns.length)
    {position : Nat}
    (inKey : position < table.primaryKey.length) :
    Row.valueOrNull ⟨fillKey table primaryKey values⟩ table.primaryKey[position] =
      (primaryKey[position]?).getD .null := by
  have inValues : position < primaryKey.length := by
    rw [sameLength]
    exact inKey
  have paired : (table.primaryKey[position], primaryKey[position]) ∈
      table.primaryKey.zip primaryKey := by
    rw [mem_iff_getElem]
    refine ⟨position, ?_, getElem_zip ..⟩
    rw [length_zip, sameLength, Nat.min_self]
    exact inKey
  have distinct : ((table.primaryKey.zip primaryKey).map Prod.fst).Nodup := by
    rw [map_fst_zip (Nat.le_of_eq sameLength.symm)]
    exact wellFormed.keyDistinct
  obtain ⟨column, found, _⟩ := wellFormed.key _ (getElem_mem inKey)
  have inRange : table.primaryKey[position] < values.length := by
    rw [width]
    exact (List.getElem?_eq_some_iff.mp found).1
  have filled := getElem?_foldl_set_of_mem Prod.fst Prod.snd distinct paired inRange
  rw [Row.valueOrNull, Row.get, fillKey, filled, getElem?_eq_getElem inValues]

theorem canonical_valueOrNull_fillKey
    (wellFormed : table.WellFormed)
    {primaryKey values : List Value}
    (sameKey : primaryKey.map Value.canonical =
      (row.primaryKeyValues table).map Value.canonical)
    (width : values.length = table.columns.length)
    {ordinal : Ordinal}
    (inKey : ordinal ∈ table.primaryKey) :
    (Row.valueOrNull ⟨fillKey table primaryKey values⟩ ordinal).canonical =
      (row.valueOrNull ordinal).canonical := by
  obtain ⟨position, inPosition, rfl⟩ := mem_iff_getElem.mp inKey
  have sameLength : primaryKey.length = table.primaryKey.length := by
    have lengths := congrArg length sameKey
    simpa only [length_map, Row.primaryKeyValues, Row.project] using lengths
  rw [valueOrNull_fillKey_of_mem wellFormed sameLength width]
  have here := congrArg (fun values => values[position]?) sameKey
  simp only [getElem?_map, Row.primaryKeyValues, Row.project,
    getElem?_eq_getElem inPosition, Option.map_some] at here
  obtain ⟨value, isValue, equal⟩ := Option.map_eq_some_iff.mp here
  rw [isValue]
  exact equal

/-- What a body decodes to does not depend on the primary key it is filled with. -/
theorem exists_values_of_decodeRowColumns
    (success : decodeRowColumns table primaryKey body wanted = .ok row) :
    ∃ values, values.length = table.columns.length ∧
      ∀ key, decodeRowColumns table key body wanted =
        .ok ⟨fillKey table key values⟩ := by
  cases body with
  | nil => cases success
  | cons format rest =>
      simp only [decodeRowColumns] at success ⊢
      split at success
      · cases success
      · next isFormat =>
          simp only [if_neg isFormat]
          split at success
          · cases success
          · next isLong =>
              simp only [if_neg isLong]
              split at success
              · cases success
              · next isPast =>
                  simp only [if_neg isPast]
                  split at success
                  · next noBody =>
                      simp only [if_pos noBody]
                      exact ⟨_, length_replicate, fun _ => rfl⟩
                  · next someBody =>
                      simp only [if_neg someBody]
                      obtain ⟨⟨decoded, reader, values⟩, decodes, success⟩ :=
                        bind_eq_ok.mp success
                      simp only [decodes]
                      dsimp only at success
                      split at success
                      · cases success
                      · next isRead =>
                          refine ⟨values, (length_decodeColumns decodes).trans
                            length_replicate, fun key => ?_⟩
                          exact if_neg isRead

theorem exists_fillKey_of_decodeRowColumns
    (success : decodeRowColumns table primaryKey body wanted = .ok row) :
    ∃ values, values.length = table.columns.length ∧
      row = ⟨fillKey table primaryKey values⟩ := by
  obtain ⟨values, width, decodes⟩ := exists_values_of_decodeRowColumns success
  rw [decodes primaryKey] at success
  cases success
  exact ⟨values, width, rfl⟩

theorem same_fillKey
    (table : TableDef) {primaryKey primaryKey' : List Value}
    (sameKey : primaryKey.map Value.canonical = primaryKey'.map Value.canonical)
    (values : List Value) :
    Row.Same ⟨fillKey table primaryKey values⟩ ⟨fillKey table primaryKey' values⟩ := by
  have filled : ∀ (ordinals : List Ordinal) (key values : List Value),
      ((ordinals.zip key).foldl (fun values pair =>
        values.set pair.1 pair.2) values).map Value.canonical =
      (ordinals.zip (key.map Value.canonical)).foldl (fun values pair =>
        values.set pair.1 pair.2) (values.map Value.canonical) := by
    intro ordinals
    induction ordinals with
    | nil =>
        intro _ _
        rfl
    | cons ordinal ordinals ih =>
        intro key values
        cases key with
        | nil => rfl
        | cons value key =>
            rw [zip_cons_cons, foldl_cons, ih,
              map_cons, zip_cons_cons, foldl_cons, map_set]
  rw [Row.Same, fillKey, fillKey, filled, filled, sameKey]

theorem primaryKeyValues_of_decodeRowColumns
    (wellFormed : table.WellFormed)
    (sameLength : primaryKey.length = table.primaryKey.length)
    (success : decodeRowColumns table primaryKey body wanted = .ok row) :
    row.primaryKeyValues table = primaryKey := by
  obtain ⟨values, width, rfl⟩ := exists_fillKey_of_decodeRowColumns success
  refine ext_getElem? (fun position => ?_)
  rw [Row.primaryKeyValues, Row.project, getElem?_map]
  by_cases inKey : position < table.primaryKey.length
  · have inValues : position < primaryKey.length := by
      rw [sameLength]
      exact inKey
    have filled := valueOrNull_fillKey_of_mem wellFormed sameLength width inKey
    rw [getElem?_eq_getElem inValues] at filled ⊢
    rw [getElem?_eq_getElem inKey, Option.map_some, filled]
    rfl
  · rw [getElem?_eq_none (Nat.le_of_not_lt inKey),
      getElem?_eq_none (by rw [sameLength]; exact Nat.le_of_not_lt inKey)]
    rfl

theorem length_of_readAll
    {directions : List Direction} {reader reader' : TupleReader}
    (success : TupleReader.readAll types directions reader = .ok (values, reader')) :
    values.length = types.length := by
  induction types generalizing directions reader values with
  | nil =>
      cases success
      rfl
  | cons type types ih =>
      obtain ⟨⟨value, next⟩, _, success⟩ := bind_eq_ok.mp success
      obtain ⟨⟨others, last⟩, read, success⟩ := bind_eq_ok.mp success
      cases success
      rw [length_cons, length_cons, ih read]

theorem length_of_decode
    {bytes : Bytes}
    (success : decode bytes types = .ok values) :
    values.length = types.length := by
  obtain ⟨⟨found, rest⟩, read, success⟩ := bind_eq_ok.mp success
  obtain ⟨⟨found', reader⟩, readAll, same⟩ := bind_eq_ok.mp read
  cases same
  dsimp only at success
  split at success
  · cases success
    exact length_of_readAll readAll
  · cases success

theorem valueOrNull_fillKey_of_notMem
    {primaryKey values : List Value}
    (outside : ordinal ∉ table.primaryKey) :
    Row.valueOrNull ⟨fillKey table primaryKey values⟩ ordinal =
      (values[ordinal]?).getD .null := by
  have absent : ∀ pair ∈ table.primaryKey.zip primaryKey, pair.1 ≠ ordinal := by
    rintro ⟨place, value⟩ member rfl
    exact outside (of_mem_zip member).1
  rw [Row.valueOrNull, Row.get, fillKey,
    getElem?_foldl_set_of_notMem Prod.fst Prod.snd absent]

theorem getElem?_readInto_of_mem
    (distinct : ordinals.Nodup)
    (member : ordinal ∈ ordinals)
    (inRange : ordinal < values.length) :
    (row.readInto ordinals values)[ordinal]? = some (row.valueOrNull ordinal).decoded :=
  getElem?_foldl_set_of_mem id (fun ordinal => (row.valueOrNull ordinal).decoded)
    (by rw [map_id]; exact distinct) member inRange

theorem getElem?_readInto_of_notMem
    (absent : ordinal ∉ ordinals) :
    (row.readInto ordinals values)[ordinal]? = values[ordinal]? := by
  refine getElem?_foldl_set_of_notMem id
    (fun ordinal => (row.valueOrNull ordinal).decoded) ?_ values
  rintro other member rfl
  exact absent member

@[simp] theorem length_readInto
    (row : Row) (ordinals : List Ordinal) (values : List Value) :
    (row.readInto ordinals values).length = values.length :=
  length_foldl_set id (fun ordinal => (row.valueOrNull ordinal).decoded) ordinals values

theorem TableDef.WellFormed.nodup_storedColumns
    (wellFormed : table.WellFormed) :
    table.storedColumns.Nodup := by
  rw [wellFormed.stored, wellFormed.body]
  exact (nodup_range.filter _).filter _

/-- A row that equals another, signed integers standing in it unchanged. -/
structure Row.ReadOf (row : Row) (table : TableDef) (stored : Row) :
    Prop where
  same : row.Same stored
  signed : ∀ ordinal column, table.column ordinal = some column →
    column.type = .i64 → ordinal ∉ table.primaryKey →
      row.valueOrNull ordinal = stored.valueOrNull ordinal

theorem Value.decoded_of_signed
    {value : Value}
    (typed : value.valueType = some .i64 ∨ value = .null) :
    value.decoded = value := by
  rcases typed with typed | rfl
  · cases value with
    | i64 number => rfl
    | _ => cases typed
  · rfl

theorem Value.canonical_of_signed
    {value : Value}
    (typed : value.valueType = some .i64 ∨ value = .null) :
    value.canonical = value := by
  rcases typed with typed | rfl
  · cases value with
    | i64 number => rfl
    | _ => cases typed
  · rfl

section

variable [Platform]

variable
  {table : TableDef}
  (wellFormed : table.WellFormed)
  {row : Row}
  (valid : row.validate table = .ok ())

include wellFormed valid

/-- A wanted column outside the primary key is read as a reader makes it. -/
theorem valueOrNull_read_of_notMem
    (primaryKey : List Value) {wanted : Option ColumnSet} {ordinal : Ordinal}
    (inRange : ordinal < table.columns.length)
    (outside : ordinal ∉ table.primaryKey)
    (asked : isWanted wanted ordinal = true) :
    Row.valueOrNull ⟨fillKey table primaryKey
        (row.readInto (table.storedColumns.filter (isWanted wanted))
          table.blank)⟩ ordinal =
      (row.valueOrNull ordinal).decoded := by
  have inBody : ordinal ∈ table.bodyColumns :=
    wellFormed.mem_bodyColumns.mpr ⟨inRange, outside⟩
  rw [valueOrNull_fillKey_of_notMem outside]
  cases isLive : table.isLive ordinal with
  | true =>
      have isRead : ordinal ∈ table.storedColumns.filter (isWanted wanted) := by
        rw [← wellFormed.filter_isLive]
        exact mem_filter.mpr ⟨mem_filter.mpr ⟨inBody, isLive⟩, asked⟩
      rw [getElem?_readInto_of_mem (wellFormed.nodup_storedColumns.filter _) isRead
        (by rw [TableDef.blank, length_replicate]; exact inRange)]
      rfl
  | false =>
      have notRead : ordinal ∉ table.storedColumns.filter (isWanted wanted) := by
        intro isRead
        have isStored := (mem_filter.mp isRead).1
        rw [← wellFormed.filter_isLive] at isStored
        rw [(mem_filter.mp isStored).2] at isLive
        cases isLive
      obtain ⟨column, found, held⟩ := holds_bodyColumns wellFormed valid ordinal inBody
      have isDropped : column.isDropped = true := by
        have isColumn : table.columns[ordinal]? = some column := found
        rw [TableDef.isLive, isColumn] at isLive
        simpa using isLive
      rw [getElem?_readInto_of_notMem notRead, held.dropped isDropped,
        TableDef.blank, getElem?_replicate, if_pos inRange]
      rfl

variable {primaryKey : List Value}

theorem canonical_valueOrNull_read
    (sameKey : primaryKey.map Value.canonical =
      (row.primaryKeyValues table).map Value.canonical)
    (wanted : Option ColumnSet) {ordinal : Ordinal}
    (inRange : ordinal < table.columns.length)
    (asked : isWanted wanted ordinal = true ∨ ordinal ∈ table.primaryKey)
    (fits : (row.valueOrNull ordinal).fits = true) :
    (Row.valueOrNull ⟨fillKey table primaryKey
        (row.readInto (table.storedColumns.filter (isWanted wanted))
          table.blank)⟩ ordinal).canonical =
      (row.valueOrNull ordinal).canonical := by
  by_cases inKey : ordinal ∈ table.primaryKey
  · exact canonical_valueOrNull_fillKey wellFormed sameKey
      (by rw [length_readInto, TableDef.blank, length_replicate]) inKey
  · rw [valueOrNull_read_of_notMem wellFormed valid primaryKey inRange inKey
      (asked.resolve_right inKey), Value.canonical_decoded, Value.coded_of_fits fits]

/-- A row that is read back in full equals the one that was written. -/
theorem readOf_of_decodeRowColumns
    (fits : row.Fits)
    (sameKey : primaryKey.map Value.canonical =
      (row.primaryKeyValues table).map Value.canonical)
    {asked : Option ColumnSet}
    (everything : ∀ ordinal, ordinal < table.columns.length →
      isWanted asked ordinal = true)
    {found : Row}
    (success : decodeRowColumns table primaryKey (encodeBody table row)
      asked = .ok found) :
    found.ReadOf table row := by
  have codes := Row.codes_of_validate wellFormed valid
  have current : table.Current := by
    intro ordinal inBody
    exact current_of_decodeRowColumns wellFormed codes ⟨ordinal, inBody, everything
      ordinal (wellFormed.mem_bodyColumns.mp inBody).1⟩ success ordinal inBody
  rw [decodeRowColumns_of_current wellFormed codes current] at success
  cases success
  have width := Row.width_of_validate valid
  have blankWidth : table.blank.length = table.columns.length := length_replicate ..
  refine ⟨?_, ?_⟩
  · apply Row.same_of_valueOrNull
    · rw [length_fillKey, length_readInto, blankWidth, width]
    · intro ordinal inRange
      rw [length_fillKey, length_readInto, blankWidth] at inRange
      exact canonical_valueOrNull_read wellFormed valid sameKey asked inRange
        (Or.inl (everything ordinal inRange)) (fits.valueOrNull ordinal)
  · intro ordinal column isColumn isSigned outside
    have inRange : ordinal < table.columns.length :=
      (List.getElem?_eq_some_iff.mp isColumn).1
    have held := Row.holds_of_validate wellFormed valid isColumn
    rw [valueOrNull_read_of_notMem wellFormed valid primaryKey inRange outside
      (everything ordinal inRange)]
    exact Value.decoded_of_signed (isSigned ▸ held.typed)

end

end SlateOrm
