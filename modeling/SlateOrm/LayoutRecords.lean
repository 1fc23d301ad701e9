import SlateOrm.Migration
import SlateOrm.TupleSkips

namespace SlateOrm

open List

/-!
# What a recorded layout distinguishes

A record is read back as it was written, in no more rounds than it has bytes.
The diff of two layouts and the fingerprint are separate walks over a layout:
the diff is empty exactly when the same bytes are hashed.
-/

/-! ## Bytes that are hashed -/

/-- The bytes that are hashed of a column. -/
def columnBytes (column : StoredColumn) : Bytes := toBeBytes 8 column.typeCode.toNat ++
    [if column.nullable then 1 else 0, if column.dropped then 1 else 0, column.scale] ++
    toBeBytes 8 column.elementCode.toNat

/-- The bytes that are hashed of an ordinal or a count. -/
def ordinalBytes (ordinal : Ordinal) : Bytes := toBeBytes 8 (UInt64.ofNat ordinal).toNat

/-- The bytes that are hashed of a tenant column. -/
def tenantBytes : Option Ordinal → Bytes
  | none => [0]
  | some ordinal => 1 :: ordinalBytes ordinal

/-- The bytes that are hashed of a layout. -/
def layoutBytes (schema : StoredSchema) : Bytes :=
  ordinalBytes schema.columns.length ++ (schema.columns.flatMap columnBytes ++
      (ordinalBytes schema.primaryKey.length ++
        (schema.primaryKey.flatMap ordinalBytes ++ tenantBytes schema.tenantColumn)))

/-- The hash of some bytes. -/
def hashBytes (hashed : Bytes) : UInt64 := hashed.foldl hashByte 0xcbf29ce484222325

theorem foldl_columnBytes
    (column : ColumnDef) (hash : UInt64) :
    (columnBytes (.of column)).foldl hashByte hash = hashColumn hash column := by
  simp only [columnBytes, StoredColumn.of, foldl_append, foldl_cons,
    foldl_nil, hashColumn, hashNumber, hashFlag]
  rfl

theorem foldl_ordinalBytes
    (ordinal : Ordinal) (hash : UInt64) :
    (ordinalBytes ordinal).foldl hashByte hash = hashNumber hash (.ofNat ordinal) := by
  rw [ordinalBytes, hashNumber]

theorem fingerprint_eq_hashBytes
    (table : TableDef) :
    fingerprint table = hashBytes (layoutBytes (.of table)) := by
  have columns (columns : List ColumnDef) (hash : UInt64) :
      columns.foldl hashColumn hash =
        ((columns.map StoredColumn.of).flatMap columnBytes).foldl hashByte
          hash := by
    induction columns generalizing hash with
    | nil => rfl
    | cons column rest ih =>
        rw [foldl_cons, ih, map_cons,
          flatMap_cons, foldl_append, foldl_columnBytes]
  have ordinals (ordinals : List Ordinal) (hash : UInt64) :
      ordinals.foldl (fun hash ordinal => hashNumber hash (.ofNat ordinal)) hash =
        (ordinals.flatMap ordinalBytes).foldl hashByte hash := by
    induction ordinals generalizing hash with
    | nil => rfl
    | cons ordinal rest ih =>
        rw [foldl_cons, ih, flatMap_cons, foldl_append, foldl_ordinalBytes]
  rw [fingerprint, hashBytes, layoutBytes, foldl_append, foldl_append,
    foldl_append, foldl_append, foldl_ordinalBytes,
    foldl_ordinalBytes, StoredSchema.of, length_map, columns, ordinals]
  dsimp only
  cases table.tenantColumn with
  | none => rw [tenantBytes, foldl_cons, foldl_nil]
  | some ordinal => rw [tenantBytes, foldl_cons, foldl_ordinalBytes]

theorem toBeBytes_inj
    {number other : Nat}
    (inRange : number < 256 ^ 8)
    (inRange' : other < 256 ^ 8)
    (same : toBeBytes 8 number = toBeBytes 8 other) :
    number = other := by
  rw [← fromBeBytes_toBeBytes inRange, same, fromBeBytes_toBeBytes inRange']

theorem ordinalBytes_inj
    {ordinal other : Ordinal}
    (small : ordinal < 2 ^ 64)
    (small' : other < 2 ^ 64)
    (same : ordinalBytes ordinal = ordinalBytes other) :
    ordinal = other := by
  rw [ordinalBytes, ordinalBytes, UInt64.toNat_ofNat_of_lt' small,
    UInt64.toNat_ofNat_of_lt' small'] at same
  exact toBeBytes_inj small small' same

theorem sameLayout_iff
    (was now : StoredColumn) :
    was.sameLayout now = true ↔ columnBytes was = columnBytes now := by
  constructor
  · intro same
    simp only [StoredColumn.sameLayout, Bool.and_eq_true, beq_iff_eq] at same
    obtain ⟨⟨⟨⟨sameType, nullable⟩, dropped⟩, scale⟩, element⟩ := same
    rw [columnBytes, columnBytes, sameType, nullable, dropped, scale, element]
  · intro same
    obtain ⟨front, element⟩ := append_inj' same (by simp)
    obtain ⟨sameType, flags⟩ := append_inj front (by simp)
    have sameType := UInt64.toNat_inj.mp
      (toBeBytes_inj was.typeCode.toNat_lt now.typeCode.toNat_lt sameType)
    have element := UInt64.toNat_inj.mp
      (toBeBytes_inj was.elementCode.toNat_lt now.elementCode.toNat_lt element)
    have flag (first second : Bool) :
        (if first then (1 : UInt8) else 0) = (if second then 1 else 0) →
          first = second := by
      cases first <;> cases second <;> decide
    obtain ⟨nullable, dropped, scale, _⟩ := by
      simpa only [cons.injEq] using flags
    simp [StoredColumn.sameLayout, sameType, element, flag _ _ nullable,
      flag _ _ dropped, scale]

theorem flatMap_inj
    {α : Type} {block : α → Bytes} {length : Nat}
    (sized : ∀ item, (block item).length = length)
    {items others : List α}
    (count : items.length = others.length)
    (same : items.flatMap block = others.flatMap block) :
    ∀ pair ∈ items.zip others, block pair.1 = block pair.2 := by
  induction items generalizing others with
  | nil => nofun
  | cons item items ih =>
      cases others with
      | nil => cases count
      | cons other others =>
          obtain ⟨first, rest⟩ := append_inj same (by rw [sized, sized])
          exact forall_mem_cons.mpr ⟨first, ih (Nat.succ.inj count) rest⟩

/-! ## The diff -/

theorem layoutChanges_eq_nil_iff
    (stored current : StoredSchema) :
    layoutChanges stored current = [] ↔ stored.columns.length = current.columns.length ∧
        (∀ pair ∈ stored.columns.zip current.columns, pair.1.sameLayout pair.2 = true) ∧
        stored.primaryKey = current.primaryKey ∧
        stored.tenantColumn = current.tenantColumn := by
  have columns : columnChanges stored current = [] ↔
      ∀ pair ∈ stored.columns.zip current.columns, pair.1.sameLayout pair.2 = true := by
    rw [columnChanges, filterMap_eq_nil_iff]
    constructor
    · intro none pair member
      obtain ⟨ordinal, inside, isPair⟩ := mem_iff_getElem.mp member
      have unchanged := none (pair, ordinal) (mk_mem_zipIdx_iff_getElem?.mpr
          (List.getElem?_eq_some_iff.mpr ⟨inside, isPair⟩))
      by_contra moved
      simp [moved] at unchanged
    · intro same pair member
      have isPair := mk_mem_zipIdx_iff_getElem?.mp member
      simp [same pair.1 (mem_of_getElem? isPair)]
  simp [layoutChanges, columns]

/-- The diff of two layouts is empty exactly when the same bytes are hashed. -/
theorem layoutChanges_eq_nil_iff_bytes
    {stored current : StoredSchema} (addressable : stored.Addressable)
    (addressable' : current.Addressable) :
    layoutChanges stored current = [] ↔ layoutBytes stored = layoutBytes current := by
  rw [layoutChanges_eq_nil_iff]
  constructor
  · rintro ⟨count, columns, key, tenant⟩
    have same : stored.columns.flatMap columnBytes =
        current.columns.flatMap columnBytes := by
      have blocks : stored.columns.map columnBytes =
          current.columns.map columnBytes := by
        rw [← forall₂_eq_eq_eq, forall₂_map_left_iff,
          forall₂_map_right_iff]
        exact forall₂_iff_zip.mpr ⟨count, fun member =>
          (sameLayout_iff _ _).mp (columns _ member)⟩
      rw [flatMap_def, blocks, flatMap_def]
    rw [layoutBytes, layoutBytes, count, same, key, tenant]
  · intro same
    have sized (ordinal : Ordinal) : (ordinalBytes ordinal).length = 8 := by
      simp [ordinalBytes]
    have columnSized (column : StoredColumn) : (columnBytes column).length = 19 := by
      simp [columnBytes]
    obtain ⟨count, same⟩ := append_inj same (by rw [sized, sized])
    have count := ordinalBytes_inj addressable.columns addressable'.columns count
    obtain ⟨columns, same⟩ := append_inj same
      (by simp [length_flatMap, columnSized, count])
    obtain ⟨keyLength, same⟩ := append_inj same (by rw [sized, sized])
    have keyLength := ordinalBytes_inj addressable.keyLength
      addressable'.keyLength keyLength
    obtain ⟨key, tenant⟩ := append_inj same (by simp [length_flatMap, sized, keyLength])
    refine ⟨count, fun pair member => (sameLayout_iff _ _).mpr
      (flatMap_inj columnSized count columns pair member), ?_, ?_⟩
    · refine forall₂_eq_eq_eq ▸ forall₂_iff_zip.mpr
        ⟨keyLength, fun member => ?_⟩
      exact ordinalBytes_inj (addressable.key _ (of_mem_zip member).1)
        (addressable'.key _ (of_mem_zip member).2) (flatMap_inj sized keyLength
        key _ member)
    · cases isTenant : stored.tenantColumn with
      | none =>
          cases isTenant' : current.tenantColumn with
          | none => rfl
          | some ordinal =>
              rw [isTenant, isTenant'] at tenant
              cases tenant
      | some ordinal =>
          cases isTenant' : current.tenantColumn with
          | none =>
              rw [isTenant, isTenant'] at tenant
              cases tenant
          | some other =>
              rw [isTenant, isTenant'] at tenant
              exact congrArg some (ordinalBytes_inj (addressable.tenant _ isTenant)
                (addressable'.tenant _ isTenant') (cons.inj tenant).2)

/-! ## Rounds -/

/-- What is read of a record leaves fewer bytes. -/
theorem length_lt_of_readPart
    {bytes rest : Bytes} {type : ValueType} {types : List ValueType}
    {values : List Value}
    (success : readPart bytes (type :: types) = .ok (values, rest)) :
    rest.length < bytes.length := by
  have passes {types : List ValueType} {directions : List Direction}
      {reader after : TupleReader} {values : List Value}
      (success : TupleReader.readAll types directions reader = .ok (values, after)) :
      reader.Passes after := by
    induction types generalizing reader directions values with
    | nil =>
        cases success
        exact .refl _
    | cons type types ih =>
        obtain ⟨⟨value, next⟩, read, success⟩ := bind_eq_ok.mp success
        obtain ⟨⟨others, last⟩, readRest, success⟩ := bind_eq_ok.mp success
        cases success
        exact (TupleReader.goesOn_of_read read).passes.trans (ih readRest)
  rw [readPart] at success
  split at success
  · next part decoded =>
      cases success
      obtain ⟨⟨read, last⟩, readAll, isRest⟩ := bind_eq_ok.mp decoded
      cases isRest
      obtain ⟨⟨value, next⟩, readFirst, others⟩ := bind_eq_ok.mp readAll
      obtain ⟨⟨_, _⟩, readRest, isLast⟩ := bind_eq_ok.mp others
      cases isLast
      have fewer := (TupleReader.goesOn_of_read readFirst).length_lt
      obtain ⟨count, _, rfl⟩ := passes readRest
      simp only [TupleReader.skipped, length_drop, TupleReader.new] at fewer ⊢
      omega
  · cases success

theorem length_lt_of_decodeStoredColumn
    {index : Nat} {bytes rest : Bytes} {column : StoredColumn}
    (success : decodeStoredColumn index bytes = .ok (column, rest)) :
    rest.length < bytes.length := by
  obtain ⟨⟨values, last⟩, read, success⟩ := bind_eq_ok.mp success
  have fewer := length_lt_of_readPart read
  dsimp only at success
  split at success
  · split at success
    · cases success
    · cases success
      exact fewer
  · cases success

theorem length_lt_of_decodeNumber
    {message : String} {bytes rest : Bytes} {number : UInt64}
    (success : decodeNumber message bytes = .ok (number, rest)) :
    rest.length < bytes.length := by
  obtain ⟨⟨values, last⟩, read, success⟩ := bind_eq_ok.mp success
  have fewer := length_lt_of_readPart read
  dsimp only at success
  split at success
  · cases success
    exact fewer
  · cases success

theorem decodeStoredColumns_rounds
    {index count enough : Nat} {bytes : Bytes}
    (isCount : bytes.length < count)
    (isEnough : bytes.length < enough) :
    decodeStoredColumns count index bytes = decodeStoredColumns enough index bytes := by
  induction count generalizing index enough bytes with
  | zero => cases isCount
  | succ count ih =>
      obtain ⟨enough, rfl⟩ := Nat.exists_eq_add_one_of_ne_zero
        (Nat.ne_zero_of_lt isEnough)
      rw [decodeStoredColumns, decodeStoredColumns]
      cases read : decodeStoredColumn index bytes with
      | error error => rfl
      | ok found =>
          have fewer := length_lt_of_decodeStoredColumn read
          simp only [bind, Except.bind]
          rw [@ih (index + 1) enough found.2 (by omega) (by omega)]

theorem decodeOrdinals_rounds
    {count enough : Nat} {bytes : Bytes}
    (isCount : bytes.length < count)
    (isEnough : bytes.length < enough) :
    decodeOrdinals count bytes = decodeOrdinals enough bytes := by
  induction count generalizing enough bytes with
  | zero => cases isCount
  | succ count ih =>
      obtain ⟨enough, rfl⟩ := Nat.exists_eq_add_one_of_ne_zero
        (Nat.ne_zero_of_lt isEnough)
      rw [decodeOrdinals, decodeOrdinals]
      cases read : decodeNumber "a primary key ordinal is not a number" bytes with
      | error error => rfl
      | ok found =>
          have fewer := length_lt_of_decodeNumber read
          simp only [bind, Except.bind]
          rw [@ih enough found.2 (by omega) (by omega)]

/--
What the keyspace records of a table is read back as it was recorded, and
reading any bytes ends in a round for each of them.  The diff of two layouts is
empty exactly when the same bytes are hashed of both, so that fingerprints that
differ have a change to report.
-/
theorem stateRecords_exact :
    (∀ (table : TableDef) (state : TableState),
      (∀ schema ∈ state.schema, schema.Addressable) →
        decodeState table (encodeState state) = .ok state) ∧
      (∀ (bytes : Bytes) (count : Nat), bytes.length < count →
        (∀ index, decodeStoredColumns count index bytes =
          decodeStoredColumns (bytes.length + 1) index bytes) ∧
        decodeOrdinals count bytes = decodeOrdinals (bytes.length + 1) bytes) ∧
      ∀ (stored : StoredSchema) (table : TableDef),
        stored.Addressable → (StoredSchema.of table).Addressable →
          (layoutChanges stored (.of table) = [] ↔
            layoutBytes stored = layoutBytes (.of table)) ∧
          (hashBytes (layoutBytes stored) ≠ fingerprint table →
            layoutChanges stored (.of table) ≠ []) := by
  refine ⟨fun table state => decodeState_encode table, ?_, ?_⟩
  · intro bytes count isCount
    exact ⟨fun index => decodeStoredColumns_rounds isCount (Nat.lt_succ_self _),
      decodeOrdinals_rounds isCount (Nat.lt_succ_self _)⟩
  · intro stored table addressable addressable'
    have same := layoutChanges_eq_nil_iff_bytes addressable addressable'
    refine ⟨same, fun differ unchanged => differ ?_⟩
    rw [same.mp unchanged, fingerprint_eq_hashBytes]

/-- The record of a table with one column. -/
theorem stateRecords_exact_poems :
    let state : TableState :=
      ⟨3, 5, [1, 2], some ⟨[⟨"id", 4, false, false, 0, 0⟩], [0], none⟩⟩
    decodeState (poems .asc) (encodeState state) = .ok state := by
  refine stateRecords_exact.1 _ _ (fun schema isSchema => ?_)
  cases isSchema
  exact ⟨by decide, by decide, by simp, nofun⟩

end SlateOrm
