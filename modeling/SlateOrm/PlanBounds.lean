import SlateOrm.PlanConstraints
import SlateOrm.Executor

namespace SlateOrm

open List Keys

/-!
# Plans lose no rows

A plan is right about a row when the keys it reads include the row's own key,
or one of the entries that the chosen index holds for it.  Every path that the
planner considers is right about every row the filter admits, except the path
over a text index whose column is declared descending: the entries are encoded
in that direction, and the path looks for ascending ones.
-/

/-! ## Extended rows -/

section

variable [Platform]

theorem exists_appendComputed
    (fromEntry : Option (Nat × Value)) (position : Nat) (compute : List Scalar)
    (values : List Value) :
    ∃ extra, appendComputed fromEntry position compute values = values ++ extra := by
  induction compute generalizing position values with
  | nil => exact ⟨[], (append_nil _).symm⟩
  | cons scalar rest ih =>
      rw [appendComputed.eq_def]
      obtain ⟨extra, isExtra⟩ := ih (position + 1) _
      exact ⟨_, isExtra.trans (append_assoc ..)⟩

variable {compute : List Scalar} {ordinal : Ordinal} {table : TableDef}
  {ordinals : List Ordinal} {constraints : Constraints}

theorem getElem?_appendComputed
    (fromEntry : Option (Nat × Value)) {position : Nat} {values : List Value}
    (inside : ordinal < values.length) :
    (appendComputed fromEntry position compute values)[ordinal]? =
      values[ordinal]? := by
  obtain ⟨extra, isExtra⟩ := exists_appendComputed fromEntry position compute values
  rw [isExtra, getElem?_append_left inside]

/-- The value of a computed column: held by an entry, or computed. -/
def computedAt (fromEntry : Option (Nat × Value)) (position : Nat)
    (scalar : Scalar) (values : List Value) : Value :=
  match fromEntry with
  | some (held, value) =>
      if held = position then
        value
      else
        scalar.evaluate (fun ordinal => values[ordinal]?)
  | none => scalar.evaluate (fun ordinal => values[ordinal]?)

theorem getElem?_appendComputed_place
    (fromEntry : Option (Nat × Value)) (position : Nat) (values : List Value)
    {place : Nat} {scalar : Scalar}
    (found : compute[place]? = some scalar) :
    (appendComputed fromEntry position compute values)[values.length + place]? =
      some (computedAt fromEntry (position + place) scalar
        (appendComputed fromEntry position (compute.take place) values)) := by
  induction compute generalizing position place values with
  | nil => cases found
  | cons first rest ih =>
      rw [appendComputed.eq_def]
      dsimp only
      cases place with
      | zero =>
          obtain rfl := Option.some.inj found
          rw [getElem?_appendComputed fromEntry (by simp), Nat.add_zero,
            getElem?_concat_length]
          rfl
      | succ place =>
          have later := ih (position + 1)
            (values ++ [computedAt fromEntry position first values]) found
          rw [length_append, length_singleton, Nat.add_assoc,
            Nat.add_comm 1 place, Nat.add_assoc, Nat.add_comm 1 place] at later
          exact later

theorem extendRow_eq
    (row : Row) (compute : List Scalar) :
    extendRow row compute [] none = ⟨appendComputed none 0 compute row.values⟩ := by
  rw [extendRow]
  cases compute <;> rfl

theorem length_appendComputed
    (fromEntry : Option (Nat × Value)) (position : Nat) (compute : List Scalar)
    (values : List Value) :
    (appendComputed fromEntry position compute values).length =
      values.length + compute.length := by
  induction compute generalizing position values with
  | nil => rfl
  | cons scalar rest ih =>
      rw [appendComputed.eq_def]
      dsimp only
      rw [ih, length_append, length_singleton, length_cons]
      omega

theorem length_extendRow
    (row : Row) (compute : List Scalar) :
    (extendRow row compute [] none).values.length =
      row.values.length + compute.length := by
  rw [extendRow_eq]
  exact length_appendComputed none 0 compute row.values

theorem get_extendRow
    {row : Row} (compute : List Scalar)
    (inside : ordinal < row.values.length) :
    (extendRow row compute [] none).get ordinal = row.get ordinal := by
  rw [extendRow_eq]
  exact getElem?_appendComputed none inside

theorem valueOrNull_extendRow
    {row : Row} (compute : List Scalar)
    (inside : ordinal < row.values.length) :
    (extendRow row compute [] none).get.valueOrNull ordinal =
      row.valueOrNull ordinal := by
  rw [Columns.valueOrNull, get_extendRow compute inside, Row.valueOrNull]

/-! ## Rows that are reached -/

/-- Entries of an index that a row has within some ranges. -/
def EntryWithin (table : TableDef) (row : Row) (id : IndexId)
    (ranges : List KeyRange) : Prop :=
  ∃ index ∈ table.indexes, index.id = id ∧ ∃ entry ∈ admittedEntries table index row,
      ∃ range ∈ ranges, range.contains entry.key = true

/-- The keys that are read include the row's, or one of its entries'. -/
def Access.Reaches (table : TableDef) (row : Row) : Access → Prop
  | .pointGet key =>
      Keys.rowKey table key = Keys.rowKey table (row.primaryKeyValues table)
  | .pointGets keys => ∃ key ∈ keys,
      Keys.rowKey table key = Keys.rowKey table (row.primaryKeyValues table)
  | .tableScan range =>
      range.contains (Keys.rowKey table (row.primaryKeyValues table)) = true
  | .indexScan id range _ => EntryWithin table row id [range]
  | .indexScans id ranges _ => EntryWithin table row id ranges
  | .nothing => False

/-- An index whose expression, if it has one, makes values held in order. -/
def IndexDef.Ordered (index : IndexDef) : Prop :=
  ∀ declared, index.expression = some declared →
    declared.produces ≠ .vector ∧ declared.produces ≠ .array

/-- A row of the table's width whose keys can be encoded in order. -/
structure Row.Keyable (row : Row) (table : TableDef) : Prop where
  width : row.values.length = table.columns.length
  key : ∀ ordinal ∈ table.primaryKey, (row.valueOrNull ordinal).isKeyable = true
  indexed : ∀ index ∈ table.indexes, index.Ordered →
    ∀ value ∈ index.keyValues row, value.isKeyable = true

/-- An index is regular when computed columns that it holds are. -/
structure IndexDef.RegularFor (index : IndexDef) (table : TableDef)
    (compute : List Scalar) : Prop where
  expression : (expressionPosition index compute).isSome → ∀ expression,
    indexExpression index = some expression →
      ∀ column ∈ expression.columns, column < table.columns.length
  ordered : (expressionPosition index compute).isSome → index.Ordered

/-- A text index over a descending column that plans may use. -/
structure IndexDef.Misread (index : IndexDef) : Prop where
  text : index.text = true
  descending : ∃ column ∈ index.columns, column.direction = .desc
  planned : index.predicate.isSome → (indexPredicate index).isSome

/-- A text index over a column that a filter searches for terms. -/
def IndexDef.Searched (index : IndexDef) (predicate : Expr) : Prop :=
  ∃ column, index.columns.head? = some column ∧
    ∃ terms, .contains column.ordinal terms ∈ predicate.conjuncts

/-- An index that plans read for a row and the columns computed of it. -/
structure IndexDef.Asked (index : IndexDef) (compute : List Scalar)
    (row : Row) : Prop where
  planned : index.predicate.isSome → (indexPredicate index).isSome
  holds : ((indexPredicate index).getD .true).evaluateOver
    (extendRow row compute [] none).get = .true
  keyed : index.expression.isSome → (expressionPosition index compute).isSome
  worded : index.text = true → index.keySets row ≠ []

/-- What an index holds of a row compares as what a query computes of it. -/
def IndexDef.Stands (index : IndexDef) (table : TableDef)
    (compute : List Scalar) (row : Row) : Prop :=
  ∀ position, expressionPosition index compute = some position →
    ∀ held ∈ index.keyValues row, ∀ other : Value, held.cut.cmp other.cut =
        ((extendRow row compute [] none).get.valueOrNull
          (table.columns.length + position)).cmp other

/-- An index that has entries of a row, where plans look for them. -/
structure IndexDef.Shows (index : IndexDef) (table : TableDef)
    (compute : List Scalar) (row : Row) : Prop where
  admits : index.admits row = true
  ascending : index.text = true → ∀ column ∈ index.columns, column.direction = .asc
  stands : index.Stands table compute row

/-- The row with its computed columns, one of them as an index holds it. -/
def IndexDef.shown (index : IndexDef) (table : TableDef)
    (compute : List Scalar) (row : Row) : Columns := fun ordinal =>
  match expressionPosition index compute with
  | some position =>
      if ordinal = table.columns.length + position then
        (index.keyValues row).head?
      else
        (extendRow row compute [] none).get ordinal
  | none => (extendRow row compute [] none).get ordinal

/-- A row that the query the paths are made for admits. -/
structure MatchContext.Admits (context : MatchContext) (row : Row) :
    Prop where
  keyable : row.Keyable context.table
  met : context.constraints.Met (extendRow row context.compute [] none).get
  holds : context.predicate.evaluateOver
    (extendRow row context.compute [] none).get = .true

/-- Columns that the filter says the same of, and that an index's keys hold. -/
structure MatchContext.Held (context : MatchContext) (index : IndexDef)
    (row : Row) (shown : Columns) : Prop where
  slots : ∀ keyColumns, indexKeyColumns context index = some keyColumns →
    slotBytes context.table index (index.keyValues row)
        (row.primaryKeyValues context.table) =
      encodeColumns shown keyColumns
  ordered : ∀ keyColumns, indexKeyColumns context index = some keyColumns →
    ∀ entry ∈ keyColumns, (shown.valueOrNull entry.1).Ordered
  met : context.constraints.Met shown

/-- An index whose entries of a row a path looks for. -/
structure MatchContext.Finds (context : MatchContext) (index : IndexDef)
    (row : Row) : Prop where
  admits : index.admits row = true
  ascending : index.text = true → ∀ column ∈ index.columns, column.direction = .asc
  held : ∃ shown, context.Held index row shown

/-! ## The primary key -/

omit [Platform] in
theorem rowKey_eq_of_canonical
    {first second : List Value}
    (same : first.map Value.canonical = second.map Value.canonical) :
    rowKey table first = rowKey table second := by
  rw [rowKey, rowKey, encode, encode, ← encodeWith_canonical, same,
    encodeWith_canonical]

omit [Platform] in
theorem encode_map_valueOrNull
    (row : Columns) (ordinals : List Ordinal) :
    encode (ordinals.map row.valueOrNull) =
      encodeColumns row (ordinals.map (fun ordinal => (ordinal, .asc))) := by
  induction ordinals with
  | nil => rfl
  | cons ordinal rest ih =>
      rw [map_cons, map_cons, encodeColumns, flatMap_cons, ← encodeColumns, ← ih]
      rfl

omit [Platform] in
theorem canonical_of_mapM_equalsFor
    {row : Columns} {key : List Value} (met : constraints.Met row)
    (fixed : ordinals.mapM (equalsFor constraints) = some key) :
    key.map Value.canonical = (ordinals.map row.valueOrNull).map Value.canonical := by
  induction ordinals generalizing key with
  | nil =>
      rw [mapM_nil] at fixed
      cases fixed
      rfl
  | cons ordinal rest ih =>
      rw [mapM_cons] at fixed
      obtain ⟨value, isFixed, fixed⟩ := Option.bind_eq_some_iff.mp fixed
      obtain ⟨others, restFixed, fixed⟩ := Option.bind_eq_some_iff.mp fixed
      cases fixed
      rw [map_cons, map_cons, map_cons, ih restFixed,
        Constraints.canonical_of_equalsFor met isFixed]

/-- A key with one value in each of its open slots. -/
def completed (fixed : List (Option Value)) (value : Value) : List Value :=
  fixed.map (fun slot => slot.getD value)

omit [Platform] in
/--
A key without an open slot is the row's, and one of the values of an open slot
makes it the row's.
-/
theorem canonical_of_pointGetColumns
    {row : Columns} {fixed : List (Option Value)}
    {varying : Option (List Value)} (met : constraints.Met row)
    (slots : pointGetColumns constraints ordinals = some (fixed, varying)) :
    (varying = none → ∀ value, (completed fixed value).map Value.canonical =
        (ordinals.map row.valueOrNull).map Value.canonical) ∧
    ∀ values, varying = some values → ∃ value ∈ values,
      (completed fixed value).map Value.canonical =
        (ordinals.map row.valueOrNull).map Value.canonical := by
  induction ordinals generalizing fixed varying with
  | nil =>
      cases slots
      exact ⟨fun _ _ => rfl, nofun⟩
  | cons ordinal rest ih =>
      rw [pointGetColumns] at slots
      obtain ⟨constraint, found, slots⟩ := Option.bind_eq_some_iff.mp slots
      obtain ⟨⟨others, open'⟩, restSlots, slots⟩ := Option.bind_eq_some_iff.mp slots
      obtain ⟨closed, opened⟩ := ih restSlots
      have metHere := Constraints.met_of_constraintsFor met found
      dsimp only at slots
      split at slots
      · next value isFixed =>
          cases slots
          have head := metHere.equals value isFixed
          constructor
          · intro isClosed other
            simp only [completed, map_cons, Option.getD_some, ← head]
            exact congrArg _ (closed isClosed other)
          · intro values isOpen
            obtain ⟨other, member, same⟩ := opened values isOpen
            refine ⟨other, member, ?_⟩
            simp only [completed, map_cons, Option.getD_some, ← head]
            exact congrArg _ same
      · split at slots
        · cases slots
        · obtain ⟨values, isList, slots⟩ := Option.bind_eq_some_iff.mp slots
          cases slots
          refine ⟨nofun, fun wanted isWanted => ?_⟩
          cases isWanted
          obtain ⟨value, member, -, equal⟩ := metHere.anyOf _ isList
          refine ⟨value, member, ?_⟩
          simp only [completed, map_cons, Option.getD_none, equal]
          exact congrArg _ (closed rfl value)

namespace MatchContext

variable {context : MatchContext}
variable {row : Row}

theorem Admits.valueOrNull
    (admits : context.Admits row) {ordinal : Ordinal}
    (inside : ordinal < context.table.columns.length) :
    (extendRow row context.compute [] none).get.valueOrNull ordinal =
      row.valueOrNull ordinal :=
  valueOrNull_extendRow context.compute (admits.keyable.width ▸ inside)

theorem Admits.primaryKeyValues
    (wellFormed : context.table.WellFormed)
    (admits : context.Admits row) :
    row.primaryKeyValues context.table = context.table.primaryKey.map
        (extendRow row context.compute [] none).get.valueOrNull := by
  refine map_congr_left (fun ordinal inKey => ?_)
  obtain ⟨column, found, -⟩ := wellFormed.key ordinal inKey
  exact (admits.valueOrNull (List.getElem?_eq_some_iff.mp found).1).symm

theorem reaches_matchPrimaryKey
    (wellFormed : context.table.WellFormed)
    (admits : context.Admits row) (ordered : Bool) :
    (matchPrimaryKey context.table context.constraints
      ordered).access.Reaches context.table row := by
  have isKey := admits.primaryKeyValues wellFormed
  have scans : (Access.tableScan (matchKey (tablePrefix context.table)
        (primaryKeyColumns context.table) context.constraints)).Reaches
      context.table row := by
    have contained : (matchKey (tablePrefix context.table)
        (primaryKeyColumns context.table) context.constraints).contains
        (tablePrefix context.table ++
          encodeColumns (extendRow row context.compute [] none).get
            (primaryKeyColumns context.table) ++ []) = true := by
      refine contains_matchKey admits.met (fun entry member => ?_)
      obtain ⟨ordinal, inKey, rfl⟩ := mem_map.mp member
      obtain ⟨column, found, -⟩ := wellFormed.key ordinal inKey
      rw [admits.valueOrNull (List.getElem?_eq_some_iff.mp found).1]
      exact Value.ordered_of_isKeyable (admits.keyable.key ordinal inKey)
    rw [Access.Reaches, rowKey, isKey, encode_map_valueOrNull]
    rwa [append_nil] at contained
  rw [matchPrimaryKey]
  split
  · next key fixed =>
      split
      · exact scans
      · refine rowKey_eq_of_canonical ?_
        rw [isKey]
        exact canonical_of_mapM_equalsFor admits.met fixed
  · exact scans

variable {candidate : Candidate} {index : IndexDef}
  {keyColumns : List (Ordinal × Direction)} {term : String}

theorem reaches_matchPointGets
    (wellFormed : context.table.WellFormed)
    (admits : context.Admits row)
    (matched : matchPointGets context.table context.constraints = some candidate) :
    candidate.access.Reaches context.table row := by
  obtain ⟨keys, isKeys, rfl⟩ := Option.map_eq_some_iff.mp matched
  rw [pointGetSet] at isKeys
  obtain ⟨⟨fixed, varying⟩, slots, isKeys⟩ := Option.bind_eq_some_iff.mp isKeys
  obtain ⟨values, isOpen, isKeys⟩ := Option.bind_eq_some_iff.mp isKeys
  obtain ⟨value, member, same⟩ :=
    (canonical_of_pointGetColumns admits.met slots).2 values isOpen
  rw [← admits.primaryKeyValues wellFormed] at same
  split at isKeys
  · cases isKeys
  · obtain rfl := Option.some.inj isKeys
    have inSorted : completed fixed value ∈ (values.map (completed fixed)).insertionSort
          (fun first second => Value.cmpList first second ≠ .gt) := by
      rw [mem_insertionSort]
      exact mem_map_of_mem member
    obtain ⟨key, isKept, equal⟩ := exists_mem_dedup inSorted
    refine ⟨key, isKept, rowKey_eq_of_canonical ?_⟩
    rcases equal with rfl | equal
    · exact same
    · rw [← (Value.beq_list_iff_canonical _ _).mp equal, same]

/-! ## Indexes -/

/-- A usable index asks nothing that the filter does not say. -/
theorem holds_of_usable
    (admits : context.Admits row)
    (isUsable : usable context index = true) :
    (index.predicate.isSome → (indexPredicate index).isSome) ∧
      ((indexPredicate index).getD .true).evaluateOver
        (extendRow row context.compute [] none).get = .true := by
  rw [usable] at isUsable
  split at isUsable
  · next isNone =>
      rw [indexPredicate.eq_def, isNone]
      exact ⟨by simp, rfl⟩
  · next predicate isPredicate =>
      split at isUsable
      · next expression isExpression =>
          rw [isExpression]
          exact ⟨fun _ => rfl, evaluateOver_of_implies isUsable admits.holds⟩
      · cases isUsable

/-- The tenant's column of an index key, if there is one. -/
def tenantColumns (table : TableDef) : List (Ordinal × Direction) :=
  match table.tenantColumn with
  | some tenant => [(tenant, .asc)]
  | none => []

omit [Platform] in
theorem indexKeyColumns_cases
    (isKey : indexKeyColumns context index = some keyColumns) :
    (index.expression = none ∧
      keyColumns = tenantColumns context.table ++ index.columns.map
        (fun column => (column.ordinal, column.direction))) ∨
    ∃ declared position, index.expression = some declared ∧
      expressionPosition index context.compute = some position ∧
      keyColumns = tenantColumns context.table ++
        [(context.table.columns.length + position, declared.direction)] := by
  rw [indexKeyColumns] at isKey
  split at isKey
  · next isNone =>
      cases isKey
      exact Or.inl ⟨isNone, rfl⟩
  · next declared isSome =>
      obtain ⟨position, isPosition, rfl⟩ := Option.map_eq_some_iff.mp isKey
      exact Or.inr ⟨declared, position, isSome, isPosition, rfl⟩

theorem encodeColumns_tenantColumns
    (wellFormed : context.table.WellFormed)
    (admits : context.Admits row) (index : IndexDef) (values : List Value) :
    slotBytes context.table index values (row.primaryKeyValues context.table) =
      encodeColumns (extendRow row context.compute [] none).get
          (tenantColumns context.table) ++
        (values.zip index.keyDirections).flatMap
          (fun pair => encodeValue pair.2 pair.1) := by
  rw [slotBytes, tenantValue, tenantColumns]
  cases isTenant : context.table.tenantColumn with
  | none => rfl
  | some tenant =>
      have isHead := wellFormed.tenant tenant isTenant
      have inKey := mem_of_mem_head? isHead
      obtain ⟨column, found, -⟩ := wellFormed.key tenant inKey
      have headValue : (row.primaryKeyValues context.table).head? =
          some (row.valueOrNull tenant) := by
        rw [Row.primaryKeyValues, Row.project, head?_map, isHead]
        rfl
      have isValue := admits.valueOrNull (List.getElem?_eq_some_iff.mp found).1
      simp only [headValue, encodeColumns, flatMap_cons,
        flatMap_nil, append_nil, isValue]

omit [Platform] in
theorem encodeColumns_congr
    {shown other : Columns}
    (same : ∀ entry ∈ keyColumns,
      shown.valueOrNull entry.1 = other.valueOrNull entry.1) :
    encodeColumns shown keyColumns = encodeColumns other keyColumns :=
  flatMap_congr (fun entry member => by rw [same entry member])

/-- Columns that agree with the row, and hold what the index does. -/
theorem Admits.held
    (wellFormed : context.table.WellFormed)
    (admits : context.Admits row)
    (member : index ∈ context.table.indexes)
    {shown : Columns}
    (agree : ∀ ordinal < context.table.columns.length,
      shown.valueOrNull ordinal = row.valueOrNull ordinal)
    (computed : ∀ position, expressionPosition index context.compute = some position →
        ∀ value ∈ index.keyValues row, (∀ direction, encodeValue direction value =
            encodeValue direction (shown.valueOrNull
              (context.table.columns.length + position))) ∧
          (shown.valueOrNull (context.table.columns.length + position)).Ordered)
    (met : context.constraints.Met shown) :
    context.Held index row shown := by
  have tenant : ∀ entry ∈ tenantColumns context.table,
      entry.1 < context.table.columns.length ∧
        (row.valueOrNull entry.1).isKeyable = true := by
    intro entry isTenant
    rw [tenantColumns] at isTenant
    split at isTenant
    · next tenant found =>
        obtain rfl := mem_singleton.mp isTenant
        have inKey := mem_of_mem_head? (wellFormed.tenant tenant found)
        obtain ⟨column, isColumn, -⟩ := wellFormed.key tenant inKey
        exact ⟨(List.getElem?_eq_some_iff.mp isColumn).1,
          admits.keyable.key tenant inKey⟩
    · cases isTenant
  have columns : ∀ column ∈ index.columns,
      column.ordinal < context.table.columns.length := by
    intro column isColumn
    obtain ⟨declared, found, -⟩ :=
      (wellFormed.indexes index member).usable column isColumn
    exact (List.getElem?_eq_some_iff.mp found).1
  have tenantBytes : encodeColumns (extendRow row context.compute [] none).get
      (tenantColumns context.table) =
        encodeColumns shown (tenantColumns context.table) := by
    refine encodeColumns_congr (fun entry isTenant => ?_)
    have inside := (tenant entry isTenant).1
    rw [admits.valueOrNull inside, agree _ inside]
  refine ⟨fun keyColumns isKey => ?_, fun keyColumns isKey => ?_, met⟩
  · rw [encodeColumns_tenantColumns wellFormed admits, tenantBytes]
    rcases indexKeyColumns_cases isKey with
      ⟨isNone, rfl⟩ | ⟨declared, position, isSome, isPosition, rfl⟩
    · rw [encodeColumns, encodeColumns, flatMap_append]
      congr 1
      have isValues : index.keyValues row = index.columns.map
          (fun column => shown.valueOrNull column.ordinal) := by
        rw [IndexDef.keyValues, isNone]
        dsimp only
        rw [Row.indexValues, Row.project, map_map]
        exact map_congr_left (fun column isColumn =>
          (agree _ (columns column isColumn)).symm)
      rw [IndexDef.keyDirections, isNone]
      dsimp only
      rw [isValues, zip_map', flatMap_map, flatMap_map]
    · rw [encodeColumns, encodeColumns, flatMap_append]
      congr 1
      have isValue : index.keyValues row = [declared.compute.value row] := by
        rw [IndexDef.keyValues, isSome]
      have same := (computed position isPosition _
        (isValue ▸ mem_singleton.mpr rfl)).1 declared.direction
      rw [isValue, IndexDef.keyDirections, isSome]
      simp only [zip_cons_cons, zip_nil_left, flatMap_cons, flatMap_nil, append_nil]
      exact same
  · have tenantOrdered : ∀ entry ∈ tenantColumns context.table,
        (shown.valueOrNull entry.1).Ordered := by
      intro entry isTenant
      rw [agree _ (tenant entry isTenant).1]
      exact Value.ordered_of_isKeyable (tenant entry isTenant).2
    rcases indexKeyColumns_cases isKey with
      ⟨isNone, rfl⟩ | ⟨declared, position, isSome, isPosition, rfl⟩
    · refine forall_mem_append.mpr ⟨tenantOrdered, ?_⟩
      intro entry isEntry
      obtain ⟨column, isColumn, rfl⟩ := mem_map.mp isEntry
      rw [agree _ (columns column isColumn)]
      refine Value.ordered_of_isKeyable (admits.keyable.indexed index member
        (fun declared isSome => ?_) _ ?_)
      · rw [isNone] at isSome
        cases isSome
      · rw [IndexDef.keyValues, isNone]
        exact mem_map_of_mem (mem_map_of_mem isColumn)
    · refine forall_mem_append.mpr ⟨tenantOrdered, forall_mem_singleton.mpr ?_⟩
      refine (computed position isPosition (declared.compute.value row) ?_).2
      rw [IndexDef.keyValues, isSome]
      exact mem_singleton.mpr rfl

omit [Platform] in
/-- A value that stands for another is encoded as it is, in its order. -/
theorem encode_of_stands
    {held value : Value}
    (stands : ∀ other : Value, held.cut.cmp other.cut = value.cmp other) :
    (∀ direction, encodeValue direction held = encodeValue direction value) ∧
      value.Ordered := by
  have equal : held.cut.cmp value.cut = .eq := by
    rw [stands, Value.cmp_self]
  refine ⟨fun direction => ?_, fun other => ?_⟩
  · have decided := (encodeValue_direction_decided direction held value).compare_eq
    rw [equal] at decided
    refine Std.LawfulEqOrd.eq_of_compare (decided.trans ?_)
    cases direction <;> rfl
  · rw [← stands]
    exact ((cmp_respects_left other.cut).eq
      ((Value.cmp_eq_iff_canonical _ _).mp equal)).symm

theorem Admits.held_of_stands
    (wellFormed : context.table.WellFormed)
    (admits : context.Admits row)
    (member : index ∈ context.table.indexes)
    (stands : index.Stands context.table context.compute row) :
    context.Held index row (extendRow row context.compute [] none).get :=
  admits.held wellFormed member (fun _ inside => admits.valueOrNull inside)
    (fun position isPosition value isHeld =>
      encode_of_stands (stands position isPosition value isHeld)) admits.met

theorem keyValues_of_indexExpression
    {expression : Scalar}
    (isScalar : indexExpression index = some expression)
    (row : Row) :
    index.keyValues row = [expression.evaluate row.get] := by
  rw [indexExpression.eq_def] at isScalar
  split at isScalar
  · next computed produces direction isExpression =>
      cases isScalar
      rw [IndexDef.keyValues, isExpression]
      rfl
  · cases isScalar

/-- The columns as an index shows them are held, where the filter says so. -/
theorem Admits.held_of_shown
    (wellFormed : context.table.WellFormed)
    (admits : context.Admits row)
    (member : index ∈ context.table.indexes)
    (ordered : (expressionPosition index context.compute).isSome →
      ∀ value ∈ index.keyValues row, value.Ordered)
    (met : context.constraints.Met (index.shown context.table context.compute row)) :
    context.Held index row (index.shown context.table context.compute row) := by
  refine admits.held wellFormed member ?_ ?_ met
  · intro ordinal inside
    rw [← admits.valueOrNull inside, Columns.valueOrNull, IndexDef.shown]
    split
    · rw [if_neg (Nat.ne_of_lt (Nat.lt_add_right _ inside))]
      rfl
    · rfl
  · intro position isPosition value isHeld
    have isSome : (expressionPosition index context.compute).isSome = true := by
      rw [isPosition]
      rfl
    obtain ⟨expression, isScalar, -⟩ := Option.bind_eq_some_iff.mp isPosition
    have single : index.keyValues row = [value] := by
      rw [keyValues_of_indexExpression isScalar] at isHeld ⊢
      rw [mem_singleton.mp isHeld]
    have isShown : (index.shown context.table context.compute row).valueOrNull
        (context.table.columns.length + position) = value := by
      rw [Columns.valueOrNull, IndexDef.shown, isPosition]
      simp only [if_true, single, head?_cons, Option.getD_some]
    rw [isShown]
    exact ⟨fun _ => rfl, ordered isSome value isHeld⟩

theorem exists_entry
    (table : TableDef) {values : List Value}
    (holdsRow : index.admits row = true)
    (isKey : values ∈ index.keySets row) :
    ∃ entry ∈ admittedEntries table index row, ∃ rest,
      entry.key = indexPrefix table index none ++ slotBytes table index values
          (row.primaryKeyValues table) ++ rest := by
  refine ⟨_, mem_admittedEntries.mpr ⟨holdsRow, values, isKey, rfl⟩, ?_⟩
  rw [indexEntry_eq, indexPrefix_none, entryBytes]
  exact ⟨_, (append_assoc _ _ _).symm⟩

/-! ## Text indexes -/

omit [Platform] in
theorem mem_of_rarestTerm
    {rank : String → Int} {terms : List String}
    (isRarest : rarestTerm rank terms = some term) :
    term ∈ terms := by
  induction terms generalizing term with
  | nil => cases isRarest
  | cons first rest ih =>
      rw [rarestTerm] at isRarest
      split at isRarest
      · cases isRarest
        exact mem_cons_self ..
      · next other isOther =>
          split at isRarest
          · cases isRarest
            exact mem_cons_of_mem _ (ih isOther)
          · cases isRarest
            exact mem_cons_self ..

omit [Platform] in
theorem searched_of_textTerm
    (isTerm : textTerm context index = some term) :
    ∃ column, index.columns.head? = some column ∧ ∃ terms, term ∈ terms ∧
        .contains column.ordinal terms ∈ context.predicate.conjuncts := by
  rw [textTerm] at isTerm
  obtain ⟨column, isHead, isTerm⟩ := Option.bind_eq_some_iff.mp isTerm
  obtain ⟨terms, isTerms, isTerm⟩ := Option.bind_eq_some_iff.mp isTerm
  obtain ⟨conjunct, isConjunct, asks⟩ := exists_of_findSome?_eq_some isTerms
  rw [containsTerms.eq_def] at asks
  split at asks
  · next on wanted =>
      split at asks
      · next isColumn =>
          cases asks
          subst isColumn
          exact ⟨column, isHead, terms, mem_of_rarestTerm isTerm, isConjunct⟩
      · cases asks
  · cases asks

theorem mem_keySets_of_textTerm
    (wellFormed : context.table.WellFormed)
    (admits : context.Admits row)
    (member : index ∈ context.table.indexes)
    (isText : index.text = true)
    (isTerm : textTerm context index = some term) :
    [Value.str term] ∈ index.keySets row := by
  obtain ⟨column, isHead, terms, isWanted, isConjunct⟩ := searched_of_textTerm isTerm
  have holds := (Expr.evaluateOver_eq_true_iff _).mp admits.holds _ isConjunct
  obtain ⟨declared, found, -⟩ := (wellFormed.indexes index member).usable column
    (mem_of_mem_head? isHead)
  rw [Expr.evaluateOver, evaluateContains, get_extendRow context.compute
    (admits.keyable.width ▸ (List.getElem?_eq_some_iff.mp found).1)] at holds
  split at holds
  · next text isValue =>
      rw [IndexDef.keySets]
      simp only [isText, Bool.not_true, Bool.false_eq_true, if_false, isHead, isValue]
      split at holds
      · cases holds
      · rw [Truth.from_eq_true_iff, all_eq_true] at holds
        have held := holds term isWanted
        exact mem_map_of_mem (contains_iff_mem.mp held)
  · cases holds

theorem access_of_matchTextIndex
    (admits : context.Admits row)
    (matched : matchTextIndex context index = some candidate) :
    ∃ term, textTerm context index = some term ∧ candidate.access = .indexScan index.id
        (.ofPrefix (indexPrefix context.table index none ++
          encodeColumns (extendRow row context.compute [] none).get
            (tenantColumns context.table) ++
          encodeValue .asc (.str term))) false := by
  rw [matchTextIndex] at matched
  obtain ⟨term, isTerm, matched⟩ := Option.bind_eq_some_iff.mp matched
  refine ⟨term, isTerm, ?_⟩
  dsimp only at matched
  rw [tenantColumns]
  split at matched
  · next isTenant =>
      cases matched
      rw [isTenant, encodeColumns, flatMap_nil, append_nil]
  · next tenant isTenant =>
      obtain ⟨keyPrefix, isPrefix, matched⟩ := Option.bind_eq_some_iff.mp matched
      obtain ⟨value, isFixed, rfl⟩ := Option.map_eq_some_iff.mp isPrefix
      cases matched
      have equal := Constraints.canonical_of_equalsFor admits.met isFixed
      rw [isTenant]
      dsimp only
      rw [encodeColumns, flatMap_cons, flatMap_nil, append_nil,
        ← encodeValue_canonical .asc value, ← equal, encodeValue_canonical]

theorem exists_term
    (isText : index.text = true)
    {values : List Value}
    (isSet : values ∈ index.keySets row) :
    ∃ term, values = [Value.str term] := by
  rw [IndexDef.keySets] at isSet
  simp only [isText, Bool.not_true, Bool.false_eq_true, if_false] at isSet
  split at isSet
  · cases isSet
  · split at isSet
    · obtain ⟨term, -, isValues⟩ := mem_map.mp isSet
      exact ⟨term, isValues.symm⟩
    · cases isSet

section

variable
  (wellFormed : context.table.WellFormed)
  (admits : context.Admits row)
  (member : index ∈ context.table.indexes)
  (isText : index.text = true)

include wellFormed admits member isText

theorem key_of_ascending
    (ascending : ∀ column ∈ index.columns, column.direction = .asc)
    (term : String) :
    slotBytes context.table index [.str term] (row.primaryKeyValues context.table) =
      encodeColumns (extendRow row context.compute [] none).get
          (tenantColumns context.table) ++
        encodeValue .asc (.str term) := by
  obtain ⟨-, notComputed, column, declared, single, -⟩ :=
    (wellFormed.indexes index member).text isText
  have isAscending : column.direction = .asc :=
    ascending column (single ▸ mem_singleton.mpr rfl)
  rw [encodeColumns_tenantColumns wellFormed admits, IndexDef.keyDirections,
    notComputed, single]
  simp only [map_cons, map_nil, zip_cons_cons, zip_nil_left, flatMap_cons,
    flatMap_nil, append_nil, isAscending]

/-- An entry that begins as an ascending term does is of an ascending index. -/
theorem ascending_of_isPrefix
    {value : Value} {entry : IndexEntry}
    (inEntries : entry ∈ admittedEntries context.table index row)
    (begins : indexPrefix context.table index none ++
      encodeColumns (extendRow row context.compute [] none).get
        (tenantColumns context.table) ++
      encodeValue .asc value <+: entry.key) :
    ∀ column ∈ index.columns, column.direction = .asc := by
  obtain ⟨-, notComputed, column, declared, single, -⟩ :=
    (wellFormed.indexes index member).text isText
  obtain ⟨-, values, isSet, rfl⟩ := mem_admittedEntries.mp inEntries
  obtain ⟨term, rfl⟩ := exists_term isText isSet
  intro other isOther
  rw [single, mem_singleton] at isOther
  subst isOther
  cases direction : other.direction with
  | asc => rfl
  | desc =>
      rw [indexEntry_eq, indexPrefix_none, entryBytes, encodeColumns_tenantColumns
        wellFormed admits, IndexDef.keyDirections, notComputed, single] at begins
      simp only [map_cons, map_nil, zip_cons_cons, zip_nil_left, flatMap_cons,
        flatMap_nil, append_nil, append_assoc, direction,
        prefix_append_right_inj] at begins
      -- Ascending and descending encodings have no first byte in common.
      obtain ⟨head, others, word, low⟩ := encodeValue_head .asc value
      obtain ⟨head', others', word', low'⟩ := encodeValue_head .desc (.str term)
      rw [word, word', cons_append, cons_prefix_cons] at begins
      obtain ⟨rfl, -⟩ := begins
      exact absurd (low'.mp (low.mpr rfl)) (by decide)

theorem reaches_matchTextIndex
    (holdsRow : index.admits row = true)
    (ascending : ∀ column ∈ index.columns, column.direction = .asc)
    (matched : matchTextIndex context index = some candidate) :
    candidate.access.Reaches context.table row := by
  obtain ⟨term, isTerm, isAccess⟩ := access_of_matchTextIndex admits matched
  obtain ⟨entry, inEntries, rest, isKey⟩ := exists_entry context.table
    holdsRow (mem_keySets_of_textTerm wellFormed admits member isText isTerm)
  rw [key_of_ascending wellFormed admits member isText ascending] at isKey
  rw [isAccess]
  refine ⟨index, member, rfl, entry, inEntries, _, mem_singleton.mpr rfl, ?_⟩
  rw [isKey, KeyRange.contains_ofPrefix]
  simp only [append_assoc]
  exact (prefix_append_right_inj _).mpr
    ((prefix_append_right_inj _).mpr (prefix_append _ _))

end

/-! ## Paths -/

omit [Platform] in
theorem expressionPosition_of_plain
    (isNone : index.expression = none)
    (compute : List Scalar) :
    expressionPosition index compute = none := by
  rw [expressionPosition, indexExpression, isNone]
  rfl

/-- A path over an index is taken where the index can be asked. -/
theorem asked_of_matchIndex
    (wellFormed : context.table.WellFormed)
    (admits : context.Admits row)
    (member : index ∈ context.table.indexes)
    (matched : matchIndex context index = some candidate) :
    index.Asked context.compute row := by
  rw [matchIndex] at matched
  split at matched
  · cases matched
  · next isUsable =>
      rw [Bool.not_eq_true, Bool.not_eq_false'] at isUsable
      obtain ⟨planned, holds⟩ := holds_of_usable admits isUsable
      refine ⟨planned, holds, fun isSome => ?_, fun isText => ?_⟩
      · split at matched
        · next isText =>
            rw [((wellFormed.indexes index member).text isText).2.1] at isSome
            cases isSome
        · obtain ⟨keyColumns, isKey, -⟩ := Option.bind_eq_some_iff.mp matched
          rcases indexKeyColumns_cases isKey with
            ⟨isNone, -⟩ | ⟨_, position, -, isPosition, -⟩
          · rw [isNone] at isSome
            cases isSome
          · rw [isPosition]
            rfl
      · rw [if_pos isText] at matched
        obtain ⟨term, isTerm, -⟩ := access_of_matchTextIndex admits matched
        exact ne_nil_of_mem
          (mem_keySets_of_textTerm wellFormed admits member isText isTerm)

omit [Platform] in
theorem searched_of_matchIndex
    (isText : index.text = true)
    (matched : matchIndex context index = some candidate) :
    index.Searched context.predicate := by
  rw [matchIndex] at matched
  split at matched
  · cases matched
  · rw [matchTextIndex] at matched
    obtain ⟨term, isTerm, -⟩ := Option.bind_eq_some_iff.mp matched
    obtain ⟨column, isHead, terms, -, isConjunct⟩ := searched_of_textTerm isTerm
    exact ⟨column, isHead, terms, isConjunct⟩

section Reached

variable (wellFormed : context.table.WellFormed)
variable (admits : context.Admits row)

include wellFormed admits

/-- The path over an index that finds the row reaches it. -/
theorem reaches_matchIndex
    {index : IndexDef} {candidate : Candidate}
    (member : index ∈ context.table.indexes)
    (finds : context.Finds index row)
    (matched : matchIndex context index = some candidate) :
    candidate.access.Reaches context.table row := by
  rw [matchIndex] at matched
  split at matched
  · cases matched
  · split at matched
    · next isText =>
        exact reaches_matchTextIndex wellFormed admits member isText
          finds.admits (finds.ascending isText) matched
    · next notText =>
        obtain ⟨keyColumns, isKey, matched⟩ := Option.bind_eq_some_iff.mp matched
        obtain ⟨shown, held⟩ := finds.held
        have isSet : index.keyValues row ∈ index.keySets row := by
          rw [IndexDef.keySets, if_pos (by simpa using notText)]
          exact mem_singleton.mpr rfl
        obtain ⟨entry, inEntries, rest, isEntry⟩ :=
          exists_entry context.table finds.admits isSet
        rw [held.slots keyColumns isKey] at isEntry
        have ordered := held.ordered keyColumns isKey
        have within : ∀ ranges, (∃ range ∈ ranges,
            KeyRange.contains range entry.key = true) →
            EntryWithin context.table row index.id ranges :=
          fun ranges contained => ⟨index, member, rfl, entry, inEntries, contained⟩
        have ofList : ∀ {ranges}, inRanges
            (indexPrefix context.table index none) keyColumns
            context.constraints = some ranges →
            EntryWithin context.table row index.id ranges := by
          intro ranges made
          apply within
          rw [isEntry]
          exact exists_contains_of_inRanges held.met ordered made
        dsimp only at matched
        split at matched
        · next range made =>
            cases matched
            exact ofList made
        · next ranges _ made =>
            cases matched
            exact ofList made
        · cases matched
          refine within _ ⟨_, mem_singleton.mpr rfl, ?_⟩
          rw [isEntry]
          exact contains_matchKey held.met ordered

theorem reaches_candidates
    {hint : Option AccessHint} :
    ∀ candidate ∈ candidates context hint, (∀ index ∈ context.table.indexes,
        matchIndex context index = some candidate → context.Finds index row) →
        candidate.access.Reaches context.table row := by
  refine forall_candidates ?_ ?_ ?_
  · exact fun _ => reaches_matchPrimaryKey wellFormed admits context.ordered
  · exact fun candidate member _ => reaches_matchPointGets wellFormed admits
      (Option.mem_toList.mp member)
  · intro chosen inTable candidate member finds
    obtain ⟨index, isChosen, matched⟩ := mem_filterMap.mp member
    exact reaches_matchIndex wellFormed admits (inTable isChosen)
      (finds index (inTable isChosen) matched) matched

end Reached

end MatchContext

/-! ## Plans -/

variable {table : TableDef} {row : Row} {compute : List Scalar}

/-- What a valid row has in its keys is encoded in order. -/
theorem Row.keyable_of_validate
    (wellFormed : table.WellFormed)
    (valid : row.validate table = .ok ()) :
    row.Keyable table := by
  have width := Row.width_of_validate valid
  refine ⟨width, ?_, ?_⟩
  · intro ordinal inKey
    obtain ⟨column, found, -, isKeyable, -⟩ := wellFormed.key ordinal inKey
    exact (Row.holds_of_validate wellFormed valid found).isKeyable isKeyable
  · intro index member ordered value isValue
    rw [IndexDef.keyValues] at isValue
    split at isValue
    · next declared isExpression =>
        obtain rfl := mem_singleton.mp isValue
        obtain ⟨notVector, notArray⟩ := ordered declared isExpression
        rw [Row.validate, if_neg (not_not.mpr width)] at valid
        obtain ⟨_, -, checked⟩ := bind_eq_ok.mp valid
        have passes := checkEach_eq_ok checked index member
        rw [checkExpression, isExpression] at passes
        dsimp only at passes
        cases isComputed : declared.compute.value row with
        | vector elements =>
            rw [isComputed] at passes
            simp only [Value.valueType] at passes
            rw [if_pos (Ne.symm notVector)] at passes
            cases passes
        | array elements =>
            rw [isComputed] at passes
            simp only [Value.valueType] at passes
            rw [if_pos (Ne.symm notArray)] at passes
            cases passes
        | _ => rfl
    · obtain ⟨ordinal, isOrdinal, rfl⟩ := mem_map.mp isValue
      obtain ⟨column, isColumn, rfl⟩ := mem_map.mp isOrdinal
      obtain ⟨declared, found, isKeyable⟩ :=
        (wellFormed.indexes index member).usable column isColumn
      exact (Row.holds_of_validate wellFormed valid found).isKeyable isKeyable

theorem Access.Reaches.pruned
    {access : Access} (reaches : access.Reaches table row) :
    (prunedAccess access).Reaches table row := by
  have notEmpty : ∀ {range : KeyRange} {key : Bytes},
      range.contains key = true → ¬range.isEmpty = true := by
    intro range key contained empty
    rw [KeyRange.contains_eq_false_of_isEmpty empty] at contained
    cases contained
  cases access with
  | tableScan range =>
      rw [prunedAccess, if_neg (notEmpty reaches)]
      exact reaches
  | indexScan id range covering =>
      have within := reaches
      obtain ⟨_, _, _, _, _, other, isRange, contained⟩ := within
      obtain rfl := mem_singleton.mp isRange
      rw [prunedAccess, if_neg (notEmpty contained)]
      exact reaches
  | indexScans id ranges covering =>
      have within := reaches
      obtain ⟨_, _, _, _, _, range, isRange, contained⟩ := within
      rw [prunedAccess, if_neg]
      · exact reaches
      · intro allEmpty
        exact notEmpty contained (all_eq_true.mp allEmpty range isRange)
  | _ => exact reaches

theorem not_unsatisfiable
    {row : Columns} {conjuncts : List Expr}
    (hold : ∀ conjunct ∈ conjuncts, conjunct.evaluateOver row = .true) :
    conjuncts.any unsatisfiable = false := by
  rw [any_eq_false]
  intro conjunct member refuted
  have holds := hold conjunct member
  rw [unsatisfiable.eq_def] at refuted
  split at refuted
  · obtain ⟨-, -, -, notNull, -⟩ := evaluateCompare_eq_true_iff.mp holds
    rw [refuted] at notNull
    cases notNull
  · cases holds
  · cases refuted

theorem admits_matchContext
    {predicate : Expr} (keyable : row.Keyable table)
    (admitted : predicate.admits (extendRow row compute [] none) = true)
    (projection : Projection) (stats : TableStats) (sort : List SortKey) :
    (matchContext table predicate projection stats sort compute).Admits
      row := by
  have holds := (Truth.admits_iff _).mp admitted
  have conjuncts := (Expr.evaluateOver_eq_true_iff predicate).mp holds
  exact ⟨keyable, Constraints.met_collectConstraints conjuncts, holds⟩

/-- A plan reaches a row that the index it reads, if any, finds. -/
theorem reaches_planHinted
    {predicate : Expr}
    (wellFormed : table.WellFormed)
    (keyable : row.Keyable table)
    (admitted : predicate.admits (extendRow row compute [] none) = true)
    (order : ScanOrder) (projection : Projection) (stats : TableStats)
    (sort : List SortKey) (hint : Option AccessHint)
    (finds : ∀ index ∈ table.indexes, ∀ candidate,
      matchIndex (matchContext table predicate projection stats sort compute)
          index = some candidate →
        (planHinted table predicate order projection stats sort hint
          compute).access = prunedAccess candidate.access →
          (matchContext table predicate projection stats sort
            compute).Finds index row) :
    (planHinted table predicate order projection stats sort hint
      compute).access.Reaches table row := by
  have holds := (Truth.admits_iff _).mp admitted
  have conjuncts := (Expr.evaluateOver_eq_true_iff predicate).mp holds
  have admits := admits_matchContext keyable admitted projection stats sort
  rcases access_planHinted table predicate order projection stats sort hint
    compute with ⟨refuted, -⟩ | ⟨candidate, considered, isAccess⟩
  · rw [not_unsatisfiable conjuncts] at refuted
    cases refuted
  · rw [isAccess]
    exact (MatchContext.reaches_candidates wellFormed admits candidate
      considered (fun index member matched =>
        finds index member candidate matched isAccess)).pruned

theorem admits_of_evaluateOver
    {index : IndexDef} {row : Row}
    (planned : index.predicate.isSome → (indexPredicate index).isSome)
    (holds : ((indexPredicate index).getD .true).evaluateOver row.get = .true) :
    index.admits row = true := by
  rw [IndexDef.admits]
  rw [indexPredicate.eq_def] at planned holds
  cases isPredicate : index.predicate with
  | none => rfl
  | some predicate =>
      rw [isPredicate] at planned holds
      cases predicate with
      | custom judge respects => cases planned rfl
      | expr expression =>
          have onRow : expression.evaluateOver row.get = .true := holds
          simp only [Predicate.truth, Expr.evaluate, onRow]
          rfl

end

/-! ## A table of poems -/

/-- A table of poems with a text index over their words. -/
def poemsBuilder (direction : Direction) : TableBuilder where
  id := 1
  name := "poems"
  columns := [
    { name := "id", type := .i64 },
    { name := "words", type := .str }]
  primaryKey := ["id"]
  indexes := [
    { id := 1
      name := "poems_words"
      columns := [("words", direction)]
      text := true }]

/-- The text index of the poems. -/
def poemsWords (direction : Direction) : IndexDef :=
  ⟨1, "poems_words", [⟨1, direction⟩], false, none, none, true⟩

/-- The table of poems. -/
def poems (direction : Direction) : TableDef where
  id := 1
  name := "poems"
  columns := (poemsBuilder direction).columns.map ColumnSpec.toColumn
  primaryKey := [0]
  bodyColumns := [1]
  storedColumns := [1]
  indexes := [poemsWords direction]
  checks := []
  foreignKeys := []
  tenantColumn := none
  softDelete := none
  schemaVersion := 0

theorem built_poems
    (direction : Direction) :
    (poemsBuilder direction).build = .ok (poems direction) := rfl

end SlateOrm
