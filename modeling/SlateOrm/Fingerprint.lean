import SlateOrm.SchemaBuild

namespace SlateOrm

/-!
# Fingerprints of tables

A client may say how many columns of a table it knows and what they hash to.
It is refused when it knows more columns than there are, when it stops before
the key, and when no spelling of the columns hashes to what it says.
-/

/-- A table as a client declares it. -/
structure SchemaCheck where
  columns : UInt32
  fingerprint : UInt64
  deriving DecidableEq, Repr

/-- Why a declaration is refused. -/
inductive SchemaRefusal where
  | tooManyColumns (table : String) (declared actual : Nat)
  | stopsBeforeKey (table : String) (declared : Nat) (key : Ordinal)
  | mismatch (table : String) (declared actual : Nat)
  deriving DecidableEq, Repr

namespace Fingerprint

def FNV_OFFSET : UInt64 := 0xcbf29ce484222325
def FNV_PRIME : UInt64 := 0x00000100000001b3

/-- How many spellings of one declaration are tried. -/
def MAX_SPELLINGS : Nat := 64

/-- Hash bytes after what was hashed. -/
def bytes (hash : UInt64) (hashed : Bytes) : UInt64 :=
  hashed.foldl (fun hash byte => (hash ^^^ byte.toUInt64) * FNV_PRIME) hash

/-- Hash a text, its length first. -/
def text (hash : UInt64) (hashed : String) : UInt64 :=
  let hash := bytes hash (utf8 (toString (utf8 hashed).length))
  let hash := bytes hash (utf8 ":")
  bytes hash (utf8 hashed)

/-- Hash a number, ended. -/
def number (hash : UInt64) (hashed : Nat) : UInt64 :=
  bytes (bytes hash (utf8 (toString hashed))) (utf8 ";")

/-- Hash a column under one of its names. -/
def spell (ordinal : Ordinal) (column : ColumnDef) (hash : UInt64)
    (name : String) : UInt64 :=
  let hash := number hash ordinal
  let hash := text hash name
  let hash := text hash column.type.name
  -- The scale of a decimal and the elements of an array change what a client
  -- reads, though they address no column.
  let hash :=
    match column.decimalScale with
    | some scale => number hash scale.toNat
    | none => hash
  match column.elementType with
  | some element => text hash element.name
  | none => hash

/-- The names a column is tried under, its own first. -/
def spellings (live : Nat) (column : ColumnDef) : List String :=
  let names := column.name :: column.previousNames
  if MAX_SPELLINGS < live * names.length then
    names.take 1
  else
    names

/-- Hash columns under all their names. -/
def spellAll : Ordinal → List ColumnDef → List UInt64 → List UInt64
  | _, [], live => live
  | ordinal, column :: rest, live =>
      spellAll (ordinal + 1) rest (live.flatMap (fun state =>
        (spellings live.length column).map (spell ordinal column state)))

/-- Every fingerprint that is accepted of so many columns of a table. -/
def accepted (table : TableDef) (name : String) (columns : Nat) : List UInt64 :=
  let start := text (bytes FNV_OFFSET (utf8 "slate.v1.schema/1")) name
  (spellAll 0 (table.columns.take columns) [start]).map (fun state =>
    let state := number (bytes state (utf8 "key")) table.primaryKey.length
    let state := table.primaryKey.foldl number state
    number (bytes state (utf8 "columns")) columns)

/-- Refuse a client that declares another table under a name. -/
def checkNamed (table : TableDef) (name : String) :
    Option SchemaCheck → Except SchemaRefusal Unit
  | none => .ok ()
  | some claim =>
      let declared := claim.columns.toNat
      let actual := table.columns.length
      if actual < declared then
        .error (.tooManyColumns name declared actual)
      else
        match table.primaryKey.find? (fun key => declared ≤ key) with
        | some key => .error (.stopsBeforeKey name declared key)
        | none =>
            if (accepted table name declared).contains claim.fingerprint then
              .ok ()
            else
              .error (.mismatch name declared actual)

/-- Refuse a client that declares another table. -/
def check (table : TableDef) (claim : Option SchemaCheck) : Except SchemaRefusal Unit :=
  checkNamed table table.name claim

/-! ## What is accepted -/

end Fingerprint

end SlateOrm
