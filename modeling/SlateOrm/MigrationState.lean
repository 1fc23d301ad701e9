import SlateOrm.Keys
import SlateOrm.TupleRoundTrip

namespace SlateOrm

open List

/-!
# What the keyspace records about a table

A migration leaves one record for each table: the schema version, a fingerprint
of the layout, the indexes that have been built, and, since the second format,
the layout itself.  What a recorded layout says about a declared one decides
whether rows already stored can still be read.
-/

/-! ## Texts of errors -/

/-- A number in hexadecimal, with its sign of base. -/
def hexadecimal (number : Nat) : String :=
  "0x" ++ String.ofList (Nat.toDigits 16 number)

/-- Two hexadecimal digits of a byte. -/
def hexadecimalByte (byte : UInt8) : String :=
  let digits := Nat.toDigits 16 byte.toNat
  String.ofList (if digits.length < 2 then '0' :: digits else digits)

/-- How an optional ordinal is printed for debugging. -/
def debugOrdinal : Option Ordinal → String
  | none => "None"
  | some ordinal => "Some(" ++ toString ordinal ++ ")"

/-- How ordinals are printed for debugging. -/
def debugOrdinals (ordinals : List Ordinal) : String :=
  "[" ++ String.intercalate ", " (ordinals.map toString) ++ "]"

/-- The message of a failure to decode a tuple. -/
def TupleError.message : TupleError → String
  | truncated offset needed =>
      "truncated tuple: needed " ++ toString needed ++
        " more byte(s) at offset " ++ toString offset
  | unknownTypeCode offset code =>
      "unknown type code 0x" ++ hexadecimalByte code ++ " at offset " ++ toString offset
  | typeMismatch offset expected found =>
      "type mismatch at offset " ++ toString offset ++ ": expected " ++
        expected ++ ", found " ++ found
  | integerOutOfRange offset value target =>
      "integer " ++ toString value ++ " at offset " ++ toString offset ++
        " does not fit in " ++ target
  | invalidUtf8 offset =>
      "invalid UTF-8 in string element at offset " ++ toString offset
  | malformedEscape offset => "malformed escape sequence at offset " ++ toString offset
  | nonCanonicalInteger offset =>
      "non-canonical integer encoding at offset " ++ toString offset
  | trailingBytes decoded remaining =>
      toString remaining ++ " trailing byte(s) after decoding " ++
        toString decoded ++ " element(s)"

/-! ## Layouts -/

/-- A stable code of a value type; none is zero. -/
def typeCode : ValueType → UInt64
  | .bool => 1
  | .bytes => 2
  | .str => 3
  | .i64 => 4
  | .u64 => 5
  | .f64 => 6
  | .uuid => 7
  | .vector => 8
  | .decimal => 9
  | .array => 10

/-- Every value type, in the order in which the code lists them. -/
def ValueType.all : List ValueType :=
  [.bool, .bytes, .str, .i64, .u64, .f64, .decimal, .uuid, .vector, .array]

/-- A column, as the keyspace remembers it. -/
structure StoredColumn where
  name : String
  typeCode : UInt64
  nullable : Bool
  dropped : Bool
  scale : UInt8
  elementCode : UInt64
  deriving DecidableEq, Repr

/-- A table's layout, as the keyspace remembers it. -/
structure StoredSchema where
  columns : List StoredColumn
  primaryKey : List Ordinal
  tenantColumn : Option Ordinal
  deriving DecidableEq, Repr

/-- What would be remembered of a column. -/
def StoredColumn.of (column : ColumnDef) : StoredColumn where
  name := column.name
  typeCode := SlateOrm.typeCode column.type
  nullable := column.nullable
  dropped := column.isDropped
  scale := column.decimalScale.getD 0
  elementCode := (column.elementType.map SlateOrm.typeCode).getD 0

/-- What would be remembered of a table if it were written now. -/
def StoredSchema.of (table : TableDef) : StoredSchema where
  columns := table.columns.map StoredColumn.of
  primaryKey := table.primaryKey
  tenantColumn := table.tenantColumn

/-- What the keyspace records about one table. -/
structure TableState where
  schemaVersion : UInt32
  fingerprint : UInt64
  /-- The indexes whose entries have been written. -/
  built : List IndexId
  /-- Absent from a record of the first format. -/
  schema : Option StoredSchema
  deriving DecidableEq, Repr

/-! ## Fingerprints -/

/-- One round of the 64-bit hash. -/
def hashByte (hash : UInt64) (byte : UInt8) : UInt64 :=
  (hash ^^^ byte.toUInt64) * 0x00000100000001b3

def hashNumber (hash : UInt64) (number : UInt64) : UInt64 :=
  (toBeBytes 8 number.toNat).foldl hashByte hash

def hashFlag (hash : UInt64) (flag : Bool) : UInt64 :=
  hashByte hash (if flag then 1 else 0)

def hashColumn (hash : UInt64) (column : ColumnDef) : UInt64 :=
  let hash := hashNumber hash (typeCode column.type)
  let hash := hashFlag hash column.nullable
  let hash := hashFlag hash column.isDropped
  let hash := hashByte hash (column.decimalScale.getD 0)
  hashNumber hash ((column.elementType.map typeCode).getD 0)

/-- A hash of everything that decides how a table's bytes are read. -/
def fingerprint (table : TableDef) : UInt64 :=
  let hash := hashNumber 0xcbf29ce484222325 (.ofNat table.columns.length)
  let hash := table.columns.foldl hashColumn hash
  let hash := hashNumber hash (.ofNat table.primaryKey.length)
  let hash := table.primaryKey.foldl
    (fun hash ordinal => hashNumber hash (.ofNat ordinal)) hash
  match table.tenantColumn with
  | none => hashByte hash 0
  | some ordinal => hashNumber (hashByte hash 1) (.ofNat ordinal)

/-! ## The state record -/

def STATE_FORMAT_V1 : UInt64 := 1
def STATE_FORMAT_V2 : UInt64 := 2
def SCHEMA_FORMAT_V1 : UInt64 := 1

/-- One way a stored layout differs from the declared one. -/
inductive LayoutChange where
  | columnCount (stored current : Nat)
  | column (ordinal : Ordinal) (name was now : String)
  | primaryKey (stored current : List Ordinal)
  | tenantColumn (stored current : Option Ordinal)
  deriving DecidableEq, Repr

/-- Something the runner of migrations will not do. -/
inductive Refusal where
  | layoutChanged (table : String) (stored current : UInt64)
      (changes : List LayoutChange)
  | unknownFormat (table : String) (format : UInt64)
  | corrupt (table detail : String)
  | soleWriterNotEstablished (table index : String)
  deriving DecidableEq, Repr

def flagBit (flag : Bool) : UInt64 := if flag then 1 else 0

def encodeStoredColumn (column : StoredColumn) : Bytes := encode [ .str column.name,
    .u64 column.typeCode,
    .u64 (flagBit column.nullable ||| (flagBit column.dropped <<< 1)),
    .u64 column.scale.toUInt64,
    .u64 column.elementCode]

def encodeTenant : Option Ordinal → Bytes
  | none => encode [.u64 0]
  | some ordinal => encode [.u64 1, .u64 (.ofNat ordinal)]

/-- The layout of a record: its version, its columns, and its keys. -/
def encodeSchema (schema : StoredSchema) : Bytes :=
  encode [.u64 SCHEMA_FORMAT_V1, .u64 (.ofNat schema.columns.length)] ++
    schema.columns.flatMap encodeStoredColumn ++
    encode [.u64 (.ofNat schema.primaryKey.length)] ++
    schema.primaryKey.flatMap (fun ordinal => encode [.u64 (.ofNat ordinal)]) ++
    encodeTenant schema.tenantColumn

/-- The bytes of a state record. -/
def encodeState (state : TableState) : Bytes := encode [
    .u64 (if state.schema.isSome then STATE_FORMAT_V2 else STATE_FORMAT_V1),
    .u64 state.schemaVersion.toUInt64,
    .u64 state.fingerprint,
    .bytes (state.built.flatMap (fun id => toBeBytes 4 id.toNat))] ++
    (state.schema.map encodeSchema).getD []

/-- Read part of a layout, with the message of a failure. -/
def readPart (bytes : Bytes) (types : List ValueType) :
    Except String (List Value × Bytes) :=
  match decodePrefix bytes types with
  | .ok part => .ok part
  | .error error => .error error.message

/-- Read one column of a layout. -/
def decodeStoredColumn (index : Nat) (bytes : Bytes) :
    Except String (StoredColumn × Bytes) := do
  let (values, rest) ← readPart bytes [.str, .u64, .u64, .u64, .u64]
  match values with
  | [.str name, .u64 code, .u64 flags, .u64 scale, .u64 element] =>
      if 256 ≤ scale.toNat then
        .error ("column " ++ toString index ++ " scale out of range")
      else
        return ({
          name := name
          typeCode := code
          nullable := flags &&& 1 == 1
          dropped := flags &&& 2 == 2
          scale := .ofNat scale.toNat
          elementCode := element }, rest)
  | _ => .error ("column " ++ toString index ++ " is not of the expected shape")

/-- Read the columns of a layout, from one of them on. -/
def decodeStoredColumns : Nat → Nat → Bytes → Except String (List StoredColumn × Bytes)
  | 0, _, bytes => .ok ([], bytes)
  | count + 1, index, bytes => do
      let (column, rest) ← decodeStoredColumn index bytes
      let (columns, rest) ← decodeStoredColumns count (index + 1) rest
      return (column :: columns, rest)

/-- Read a number, with the message for anything else. -/
def decodeNumber (message : String) (bytes : Bytes) :
    Except String (UInt64 × Bytes) := do
  let (values, rest) ← readPart bytes [.u64]
  match values with
  | [.u64 number] => return (number, rest)
  | _ => .error message

/-- Read the ordinals of a primary key. -/
def decodeOrdinals : Nat → Bytes → Except String (List Ordinal × Bytes)
  | 0, bytes => .ok ([], bytes)
  | count + 1, bytes => do
      let (ordinal, rest) ← decodeNumber "a primary key ordinal is not a number" bytes
      let (ordinals, rest) ← decodeOrdinals count rest
      return (ordinal.toNat :: ordinals, rest)

/-- Read the tenant column of a layout. -/
def decodeTenant (bytes : Bytes) : Except String (Option Ordinal × Bytes) := do
  let (tagged, rest) ← decodeNumber "the tenant tag is not a number" bytes
  if tagged == 0 then
    return (none, rest)
  else do
    let (ordinal, rest) ← decodeNumber "the tenant ordinal is not a number" rest
    return (some ordinal.toNat, rest)

/-- Read a layout, or say what is wrong with it. -/
def decodeSchema (bytes : Bytes) : Except String StoredSchema := do
  let (header, rest) ← readPart bytes [.u64, .u64]
  match header with
  | [.u64 version, .u64 count] =>
      if version != SCHEMA_FORMAT_V1 then
        .error ("schema blob version " ++ toString version ++
          " is not one this binary reads")
      else do
        let (columns, rest) ← decodeStoredColumns count.toNat 0 rest
        let (keyLength, rest) ←
          decodeNumber "the primary key length is not a number" rest
        let (primaryKey, rest) ← decodeOrdinals keyLength.toNat rest
        let (tenantColumn, rest) ← decodeTenant rest
        if rest.isEmpty then
          return ⟨columns, primaryKey, tenantColumn⟩
        else
          .error (toString rest.length ++ " bytes after the schema")
  | _ => .error "the schema header is not two numbers"

/-- The ids in a list of four bytes each, unless some bytes are left. -/
def decodeBuilt : Bytes → Option (List IndexId)
  | [] => some []
  | first :: second :: third :: fourth :: rest =>
      (decodeBuilt rest).map
        (UInt32.ofNat (fromBeBytes [first, second, third, fourth]) :: ·)
  | _ => none

/-- The layout that follows a record's first four values, by its format. -/
def decodeStateSchema (table : String) (format : UInt64) (rest : Bytes) :
    Except Refusal (Option StoredSchema) :=
  if format = STATE_FORMAT_V1 then
    if rest.isEmpty then
      .ok none
    else
      .error (.corrupt table "a version 1 record has bytes after it")
  else if format = STATE_FORMAT_V2 then
    match decodeSchema rest with
    | .ok schema => .ok (some schema)
    | .error detail => .error (.corrupt table detail)
  else
    .error (.unknownFormat table format)

/-- Decode a state record, or say why not. -/
def decodeState (table : TableDef) (bytes : Bytes) : Except Refusal TableState :=
  match decodePrefix bytes [.u64, .u64, .u64, .bytes] with
  | .error error => .error (.corrupt table.name error.message)
  | .ok ([.u64 format, .u64 version, .u64 fingerprint, .bytes ids], rest) => do
      let schema ← decodeStateSchema table.name format rest
      match decodeBuilt ids with
      | none =>
          .error (.corrupt table.name
            "the built-index list is not a whole number of ids")
      | some built =>
          if 2 ^ 32 ≤ version.toNat then
            .error (.corrupt table.name "schema version out of range")
          else
            return {
              schemaVersion := .ofNat version.toNat
              fingerprint := fingerprint
              built := built
              schema := schema }
  | .ok _ => .error (.corrupt table.name "not four values of the expected types")

/-! ## A record says what was recorded -/

section

variable
  {values : List Value}
  {types : List ValueType}
  (typed : Typed values types)
  (plain : values.map Value.decoded = values)
  (rest : Bytes)

include typed plain rest

/-- A tuple is read back from the front of what follows it. -/
theorem decodePrefix_encode_append :
    decodePrefix (encode values ++ rest) types = .ok (values, rest) := by
  obtain ⟨stop, read⟩ := readAll_reads values types [] 0 rest typed
  rw [plain] at read
  simp only [decodePrefix, decodePrefixWith, TupleReader.new, encode, read,
    bind, Except.bind, pure, Except.pure]

theorem readPart_encode_append :
    readPart (encode values ++ rest) types = .ok (values, rest) := by
  rw [readPart, decodePrefix_encode_append typed plain]

end

theorem decodeNumber_encode_append
    (message : String) (number : UInt64) (rest : Bytes) :
    decodeNumber message (encode [.u64 number] ++ rest) = .ok (number, rest) := by
  have part : readPart (encode [.u64 number] ++ rest) [.u64] =
      .ok ([.u64 number], rest) :=
    readPart_encode_append (by simp [Typed, Value.valueType, Value.flat])
      rfl rest
  rw [decodeNumber, part]
  rfl

/-- A stored column is read back. -/
theorem decodeStoredColumn_encode
    (index : Nat) (column : StoredColumn) (rest : Bytes) :
    decodeStoredColumn index (encodeStoredColumn column ++ rest) =
      .ok (column, rest) := by
  have part : readPart (encodeStoredColumn column ++ rest)
      [.str, .u64, .u64, .u64, .u64] =
      .ok ([.str column.name, .u64 column.typeCode,
        .u64 (flagBit column.nullable ||| (flagBit column.dropped <<< 1)),
        .u64 column.scale.toUInt64, .u64 column.elementCode], rest) :=
    readPart_encode_append (by simp [Typed, Value.valueType, Value.flat])
      (by simp [Value.decoded, Value.cut, Value.canonical]) rest
  have inRange : ¬256 ≤ column.scale.toUInt64.toNat := by
    have := column.scale.toNat_lt
    simp
    omega
  have isNullable :
      ((flagBit column.nullable ||| (flagBit column.dropped <<< 1)) &&& 1 ==
        1) = column.nullable := by
    cases column.nullable <;> cases column.dropped <;> rfl
  have isDropped :
      ((flagBit column.nullable ||| (flagBit column.dropped <<< 1)) &&& 2 ==
        2) = column.dropped := by
    cases column.nullable <;> cases column.dropped <;> rfl
  rw [decodeStoredColumn, part]
  dsimp only [bind, Except.bind]
  rw [if_neg inRange, isNullable, isDropped]
  simp [pure, Except.pure]

/-- As many stored columns are read back as were written. -/
theorem decodeStoredColumns_encode
    (columns : List StoredColumn) (index : Nat) (rest : Bytes) :
    decodeStoredColumns columns.length index
        (columns.flatMap encodeStoredColumn ++ rest) =
      .ok (columns, rest) := by
  induction columns generalizing index with
  | nil => rfl
  | cons column columns ih =>
      rw [length_cons, decodeStoredColumns, flatMap_cons,
        append_assoc, decodeStoredColumn_encode]
      dsimp only [bind, Except.bind]
      rw [ih]
      rfl

/-- As many ordinals are read back as were written. -/
theorem decodeOrdinals_encode
    (ordinals : List Ordinal)
    (small : ∀ ordinal ∈ ordinals, ordinal < 2 ^ 64)
    (rest : Bytes) :
    decodeOrdinals ordinals.length
        (ordinals.flatMap (fun ordinal => encode [.u64 (.ofNat ordinal)]) ++ rest) =
      .ok (ordinals, rest) := by
  induction ordinals with
  | nil => rfl
  | cons ordinal ordinals ih =>
      obtain ⟨inRange, others⟩ := forall_mem_cons.mp small
      have exact : (UInt64.ofNat ordinal).toNat = ordinal :=
        UInt64.toNat_ofNat_of_lt' inRange
      rw [length_cons, decodeOrdinals, flatMap_cons,
        append_assoc, decodeNumber_encode_append]
      dsimp only [bind, Except.bind]
      rw [ih others, exact]
      rfl

/-- A layout whose counts and ordinals a machine word holds. -/
structure StoredSchema.Addressable (schema : StoredSchema) : Prop where
  columns : schema.columns.length < 2 ^ 64
  keyLength : schema.primaryKey.length < 2 ^ 64
  key : ∀ ordinal ∈ schema.primaryKey, ordinal < 2 ^ 64
  tenant : ∀ ordinal ∈ schema.tenantColumn, ordinal < 2 ^ 64

/-- A tenant column is read back, and so is that there is none. -/
theorem decodeTenant_encode
    {tenant : Option Ordinal}
    (small : ∀ ordinal ∈ tenant, ordinal < 2 ^ 64) :
    decodeTenant (encodeTenant tenant) = .ok (tenant, []) := by
  cases tenant with
  | none =>
      have tag := decodeNumber_encode_append "the tenant tag is not a number" 0 []
      rw [append_nil] at tag
      rw [decodeTenant, encodeTenant, tag]
      rfl
  | some ordinal =>
      have exact : (UInt64.ofNat ordinal).toNat = ordinal :=
        UInt64.toNat_ofNat_of_lt' (small ordinal rfl)
      have parts : encode [.u64 1, .u64 (.ofNat ordinal)] =
          encode [.u64 1] ++ (encode [.u64 (.ofNat ordinal)] ++ []) := by
        simp [encode, encodeWith]
      rw [decodeTenant, encodeTenant, parts, decodeNumber_encode_append]
      dsimp only [bind, Except.bind]
      rw [if_neg (by decide), decodeNumber_encode_append]
      dsimp only
      rw [exact]
      rfl

/-- A stored layout is read back. -/
theorem decodeSchema_encode
    {schema : StoredSchema} (addressable : schema.Addressable) :
    decodeSchema (encodeSchema schema) = .ok schema := by
  have columnCount : (UInt64.ofNat schema.columns.length).toNat =
      schema.columns.length :=
    UInt64.toNat_ofNat_of_lt' addressable.columns
  have keyLength : (UInt64.ofNat schema.primaryKey.length).toNat =
      schema.primaryKey.length :=
    UInt64.toNat_ofNat_of_lt' addressable.keyLength
  rw [decodeSchema, encodeSchema]
  simp only [append_assoc]
  rw [readPart_encode_append (by simp [Typed, Value.valueType, Value.flat]) rfl]
  dsimp only [bind, Except.bind]
  rw [if_neg (by decide), columnCount, decodeStoredColumns_encode]
  dsimp only
  rw [decodeNumber_encode_append]
  dsimp only
  rw [keyLength, decodeOrdinals_encode _ addressable.key]
  dsimp only
  rw [decodeTenant_encode addressable.tenant]
  rfl

/-- The list of the built indexes is read back. -/
theorem decodeBuilt_encode
    (built : List IndexId) :
    decodeBuilt (built.flatMap (fun id => toBeBytes 4 id.toNat)) = some built := by
  induction built with
  | nil => rfl
  | cons id built ih =>
      have whole : fromBeBytes (toBeBytes 4 id.toNat) = id.toNat :=
        fromBeBytes_toBeBytes (by simpa using id.toNat_lt)
      obtain ⟨first, second, third, fourth, four⟩ : ∃ first second third fourth,
        toBeBytes 4 id.toNat = [first, second, third, fourth] := ⟨_, _, _, _, rfl⟩
      rw [four] at whole
      rw [flatMap_cons, four]
      simp only [cons_append, nil_append]
      rw [decodeBuilt, ih, whole]
      simp

/-- The record of a table is read back. -/
theorem decodeState_encode
    (table : TableDef) {state : TableState}
    (addressable : ∀ schema ∈ state.schema, schema.Addressable) :
    decodeState table (encodeState state) = .ok state := by
  have inRange : ¬2 ^ 32 ≤ state.schemaVersion.toUInt64.toNat := by
    have := state.schemaVersion.toNat_lt
    simp
    omega
  have schema : decodeStateSchema table.name
          (if state.schema.isSome then STATE_FORMAT_V2 else STATE_FORMAT_V1)
          ((state.schema.map encodeSchema).getD []) =
        .ok state.schema := by
    cases known : state.schema with
    | none => rfl
    | some schema =>
        rw [decodeStateSchema, if_neg (by simp; decide), if_pos (by simp)]
        simp only [Option.map_some, Option.getD_some]
        rw [decodeSchema_encode (addressable schema known)]
  rw [decodeState, encodeState, decodePrefix_encode_append
    (by simp [Typed, Value.valueType, Value.flat])
    (by simp [Value.decoded, Value.cut, Value.canonical])]
  dsimp only
  rw [schema, decodeBuilt_encode]
  dsimp only [bind, Except.bind]
  rw [if_neg inRange]
  simp [pure, Except.pure]

end SlateOrm
