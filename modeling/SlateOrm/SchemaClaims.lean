import Mathlib.Logic.Relation
import SlateOrm.Fingerprint
import SlateOrm.TextLines

namespace SlateOrm

open List

/-!
# Declarations of tables

The bytes that are hashed for a declaration read one way only: a text follows
its length, a number ends at its semicolon, and a type says whether a scale
follows.  A table accepts what its earlier versions declare, and the bytes that
it accepts are those of no other declaration.
-/

theorem ValueType.name_injective
    {type other : ValueType}
    (same : type.name = other.name) :
    type = other := by
  cases type <;> cases other <;> first | rfl | exact absurd same (by decide)

namespace Fingerprint

/-! ## Bytes of declarations -/

/-- The bytes hashed for a number. -/
def numberBytes (number : Nat) : Bytes := utf8 (toString number) ++ utf8 ";"

/-- The bytes hashed for a text. -/
def textBytes (text : String) : Bytes :=
  utf8 (toString (utf8 text).length) ++ utf8 ":" ++ utf8 text

/-- A column as it is declared: a decimal has a scale and nothing else has. -/
@[ext]
structure DeclaredColumn where
  name : String
  type : ValueType
  scale : Option UInt8
  element : Option ValueType
  scaled : scale.isSome = decide (type = .decimal)

/-- The bytes hashed for a column. -/
def DeclaredColumn.bytes (ordinal : Ordinal) (column : DeclaredColumn) :
    Bytes :=
  numberBytes ordinal ++ (textBytes column.name ++ (textBytes column.type.name ++
      (column.scale.elim [] (fun scale => numberBytes scale.toNat) ++
        column.element.elim [] (fun element => textBytes element.name))))

/-- The bytes hashed for columns in order. -/
def columnsBytes : Ordinal → List DeclaredColumn → Bytes
  | _, [] => []
  | ordinal, column :: rest => column.bytes ordinal ++ columnsBytes (ordinal + 1) rest

/-- A table as it is declared. -/
@[ext]
structure Declaration where
  name : String
  columns : List DeclaredColumn
  key : List Ordinal
  count : Nat

/-- The bytes hashed for a declaration. -/
def Declaration.bytes (declared : Declaration) : Bytes :=
  utf8 "slate.v1.schema/1" ++ (textBytes declared.name ++
    (columnsBytes 0 declared.columns ++ (utf8 "key" ++
      (numberBytes declared.key.length ++
        (declared.key.flatMap numberBytes ++ (utf8 "columns" ++
          numberBytes declared.count))))))

/-! ## Reading bytes back -/

/-- The byte of a decimal digit. -/
def IsDigit (byte : UInt8) : Prop := 48 ≤ byte ∧ byte ≤ 57

instance (byte : UInt8) : Decidable (IsDigit byte) :=
  inferInstanceAs (Decidable (48 ≤ byte ∧ byte ≤ 57))

variable {byte : UInt8}

theorem isDigit_of_mem_utf8
    {number : Nat}
    (member : byte ∈ utf8 (toString number)) :
    IsDigit byte := by
  have encoded : utf8 (toString number) =
      (Nat.toDigits 10 number).flatMap String.utf8EncodeChar := by
    rw [utf8, ← String.utf8Encode_toList, utf8Encode]
    simp
  rw [encoded] at member
  obtain ⟨char, isChar, member⟩ := mem_flatMap.mp member
  have isDigit := isDigit_toDigits isChar
  simp only [Char.isDigit, Bool.and_eq_true, decide_eq_true_eq,
    UInt32.le_iff_toNat_le] at isDigit
  have low : 48 ≤ char.toNat := isDigit.1
  have high : char.toNat ≤ 57 := isDigit.2
  have small : char.utf8Size = 1 :=
    Char.utf8Size_eq_one_iff.mpr (UInt32.le_iff_toNat_le.mpr (high.trans (by decide)))
  rw [String.utf8EncodeChar_eq_singleton small, mem_singleton] at member
  have isByte : byte.toNat = char.toNat := by
    rw [member]
    exact Nat.mod_eq_of_lt (high.trans_lt (by decide))
  rw [IsDigit, UInt8.le_iff_toNat_le, UInt8.le_iff_toNat_le, isByte]
  exact ⟨low, high⟩

theorem utf8_toString_inj
    {number other : Nat}
    (same : utf8 (toString number) = utf8 (toString other)) :
    number = other := by
  have digits : Nat.toDigits 10 number = Nat.toDigits 10 other := by
    simpa using congrArg String.toList (utf8_injective same)
  rw [← Nat.ofDigitChars_ten_toDigits (n := number), digits,
    Nat.ofDigitChars_ten_toDigits]

theorem digits_append_inj
    {first second rest rest' : Bytes} {byte' : UInt8}
    (digits : ∀ byte ∈ first, IsDigit byte)
    (digits' : ∀ byte ∈ second, IsDigit byte)
    (ends : ¬ IsDigit byte)
    (ends' : ¬ IsDigit byte')
    (same : first ++ byte :: rest = second ++ byte' :: rest') :
    first = second ∧ byte = byte' ∧ rest = rest' := by
  induction first generalizing second with
  | nil =>
      cases second with
      | nil => exact ⟨rfl, cons.inj same⟩
      | cons digit second =>
          rw [(cons.inj same).1] at ends
          exact absurd (digits' digit mem_cons_self) ends
  | cons digit first ih =>
      cases second with
      | nil =>
          rw [← (cons.inj same).1] at ends'
          exact absurd (digits digit mem_cons_self) ends'
      | cons digit' second =>
          obtain ⟨rfl, tails⟩ := cons.inj same
          obtain ⟨rfl, others⟩ := ih (fun byte member => digits
            byte (mem_cons_of_mem _ member)) (fun byte member => digits' byte
            (mem_cons_of_mem _ member)) tails
          exact ⟨rfl, others⟩

variable {ordinal : Ordinal}

section

variable {number other : Nat} {text text' : String} {rest rest' : Bytes}

theorem numberBytes_inj
    (same : numberBytes number ++ rest = numberBytes other ++ rest') :
    number = other ∧ rest = rest' := by
  rw [numberBytes, numberBytes, append_assoc, append_assoc] at same
  obtain ⟨digits, -, others⟩ := digits_append_inj
    (fun _ => isDigit_of_mem_utf8) (fun _ => isDigit_of_mem_utf8)
    (by decide) (by decide) same
  exact ⟨utf8_toString_inj digits, others⟩

theorem textBytes_inj
    (same : textBytes text ++ rest = textBytes text' ++ rest') :
    text = text' ∧ rest = rest' := by
  rw [textBytes, textBytes, append_assoc, append_assoc,
    append_assoc, append_assoc] at same
  obtain ⟨digits, -, others⟩ := digits_append_inj
    (fun _ => isDigit_of_mem_utf8) (fun _ => isDigit_of_mem_utf8)
    (by decide) (by decide) same
  have others : utf8 text ++ rest = utf8 text' ++ rest' := others
  obtain ⟨texts, others⟩ := append_inj others (utf8_toString_inj digits)
  exact ⟨utf8_injective texts, others⟩

theorem numberBytes_ne_textBytes :
    numberBytes number ++ rest ≠ textBytes text ++ rest' := by
  intro same
  rw [numberBytes, textBytes, append_assoc, append_assoc, append_assoc] at same
  obtain ⟨-, ends, -⟩ := digits_append_inj
    (fun _ => isDigit_of_mem_utf8) (fun _ => isDigit_of_mem_utf8)
    (by decide) (by decide) same
  exact absurd ends (by decide)

theorem cons_ne_digits
    {byte' : UInt8}
    (ends : ¬ IsDigit byte)
    (ends' : ¬ IsDigit byte') :
    byte :: rest ≠ utf8 (toString number) ++ byte' :: rest' := by
  intro same
  obtain ⟨none, -⟩ := @digits_append_inj _ [] _ _ _ _ (by simp)
    (fun _ => isDigit_of_mem_utf8) ends ends' same
  have empty : toString number = "" := utf8_injective none.symm
  exact absurd (congrArg String.toList empty) (by simp [Nat.toDigits_ne_nil])

/-- What follows a column: a number, or no digit. -/
def EndsColumn (rest : Bytes) : Prop :=
  (∃ number rest', rest = numberBytes number ++ rest') ∨
    ∃ byte rest', ¬ IsDigit byte ∧ rest = byte :: rest'

theorem EndsColumn.ne_textBytes
    (ends : EndsColumn rest) :
    rest ≠ textBytes text ++ rest' := by
  rcases ends with ⟨number, others, rfl⟩ | ⟨byte, others, notDigit, rfl⟩
  · exact numberBytes_ne_textBytes
  · rw [textBytes, append_assoc, append_assoc]
    exact cons_ne_digits notDigit (by decide)

theorem ends_columnsBytes
    (ends : ¬ IsDigit byte)
    (ordinal : Ordinal) (columns : List DeclaredColumn) :
    EndsColumn (columnsBytes ordinal columns ++ byte :: rest) := by
  cases columns with
  | nil => exact .inr ⟨byte, rest, ends, rfl⟩
  | cons column columns =>
      rw [columnsBytes, DeclaredColumn.bytes, append_assoc, append_assoc]
      exact .inl ⟨ordinal, _, rfl⟩

/-- A column ends where another begins. -/
theorem DeclaredColumn.bytes_inj
    {ordinal' : Ordinal} {column column' : DeclaredColumn}
    (ends : EndsColumn rest) (ends' : EndsColumn rest')
    (same : column.bytes ordinal ++ rest = column'.bytes ordinal' ++ rest') :
    column = column' ∧ rest = rest' := by
  simp only [DeclaredColumn.bytes, append_assoc] at same
  obtain ⟨-, same⟩ := numberBytes_inj same
  obtain ⟨names, same⟩ := textBytes_inj same
  obtain ⟨types, same⟩ := textBytes_inj same
  have types := ValueType.name_injective types
  have scaled : column.scale.isSome = column'.scale.isSome := by
    rw [column.scaled, column'.scaled, types]
  have elements {rest rest' : Bytes} (ends : EndsColumn rest) (ends' : EndsColumn rest')
      (same : column.element.elim [] (fun type => textBytes type.name) ++ rest =
        column'.element.elim [] (fun type => textBytes type.name) ++ rest') :
      column.element = column'.element ∧ rest = rest' := by
    cases isElement : column.element with
    | none =>
        cases isElement' : column'.element with
        | none =>
            rw [isElement, isElement'] at same
            exact ⟨rfl, same⟩
        | some type =>
            rw [isElement, isElement'] at same
            exact absurd same ends.ne_textBytes
    | some type =>
        cases isElement' : column'.element with
        | none =>
            rw [isElement, isElement'] at same
            exact absurd same.symm ends'.ne_textBytes
        | some type' =>
            rw [isElement, isElement'] at same
            obtain ⟨types, same⟩ := textBytes_inj same
            exact ⟨congrArg some (ValueType.name_injective types), same⟩
  cases isScale : column.scale with
  | none =>
      have isScale' : column'.scale = none := by
        simpa [isScale] using scaled.symm
      rw [isScale, isScale'] at same
      obtain ⟨sameElement, same⟩ := elements ends ends' same
      exact ⟨DeclaredColumn.ext names types (isScale.trans isScale'.symm)
        sameElement, same⟩
  | some scale =>
      obtain ⟨scale', isScale'⟩ := Option.isSome_iff_exists.mp
        (scaled.symm.trans (by rw [isScale]; rfl))
      rw [isScale, isScale', Option.elim_some, Option.elim_some] at same
      obtain ⟨scales, same⟩ := numberBytes_inj same
      obtain ⟨sameElement, same⟩ := elements ends ends' same
      rw [UInt8.toNat_inj.mp scales] at isScale
      exact ⟨DeclaredColumn.ext names types (isScale.trans isScale'.symm)
        sameElement, same⟩

theorem columnsBytes_inj
    (ends : ¬ IsDigit byte)
    {columns columns' : List DeclaredColumn}
    (same : columnsBytes ordinal columns ++ byte :: rest =
      columnsBytes ordinal columns' ++ byte :: rest') :
    columns = columns' ∧ rest = rest' := by
  induction columns generalizing ordinal columns' with
  | nil =>
      cases columns' with
      | nil => exact ⟨rfl, (cons.inj same).2⟩
      | cons column columns' =>
          rw [columnsBytes, columnsBytes, DeclaredColumn.bytes, numberBytes,
            append_assoc, append_assoc, append_assoc] at same
          exact absurd same (cons_ne_digits ends (by decide))
  | cons column columns ih =>
      cases columns' with
      | nil =>
          rw [columnsBytes, columnsBytes, DeclaredColumn.bytes, numberBytes,
            append_assoc, append_assoc, append_assoc] at same
          exact absurd same.symm (cons_ne_digits ends (by decide))
      | cons column' columns' =>
          rw [columnsBytes, columnsBytes, append_assoc, append_assoc] at same
          obtain ⟨rfl, others⟩ := DeclaredColumn.bytes_inj
            (ends_columnsBytes ends _ _) (ends_columnsBytes ends _ _) same
          obtain ⟨rfl, after⟩ := ih others
          exact ⟨rfl, after⟩

theorem flatMap_numberBytes_inj
    (ends : ¬ IsDigit byte)
    {numbers others : List Nat}
    (same : numbers.flatMap numberBytes ++ byte :: rest =
      others.flatMap numberBytes ++ byte :: rest') :
    numbers = others ∧ rest = rest' := by
  induction numbers generalizing others with
  | nil =>
      cases others with
      | nil => exact ⟨rfl, (cons.inj same).2⟩
      | cons other others =>
          rw [flatMap_cons, numberBytes, append_assoc, append_assoc] at same
          exact absurd same (cons_ne_digits ends (by decide))
  | cons number numbers ih =>
      cases others with
      | nil =>
          rw [flatMap_cons, numberBytes, append_assoc, append_assoc] at same
          exact absurd same.symm (cons_ne_digits ends (by decide))
      | cons other others =>
          rw [flatMap_cons, flatMap_cons, append_assoc, append_assoc] at same
          obtain ⟨rfl, tails⟩ := numberBytes_inj same
          obtain ⟨rfl, after⟩ := ih tails
          exact ⟨rfl, after⟩

end

theorem Declaration.bytes_injective
    {declared other : Declaration}
    (same : declared.bytes = other.bytes) :
    declared = other := by
  obtain ⟨names, same⟩ := textBytes_inj (append_cancel_left same)
  obtain ⟨columns, same⟩ := columnsBytes_inj (by decide) same
  obtain ⟨-, same⟩ := numberBytes_inj (append_cancel_left same)
  obtain ⟨keys, same⟩ := flatMap_numberBytes_inj (by decide) same
  have counts := append_cancel_left same
  rw [← append_nil (numberBytes declared.count),
    ← append_nil (numberBytes other.count)] at counts
  exact Declaration.ext names columns keys (numberBytes_inj counts).1

/-! ## Declarations that are accepted -/

/-- A column as it is declared under a name. -/
def ofColumn (column : ColumnDef) (name : String) : DeclaredColumn where
  name := name
  type := column.type
  scale := column.decimalScale
  element := column.elementType
  scaled := by
    rw [ColumnDef.decimalScale]
    split <;> simp_all

/-- The columns that are tried for columns, one after another. -/
def spellColumns :
    List ColumnDef → List (List DeclaredColumn) → List (List DeclaredColumn)
  | [], live => live
  | column :: rest, live =>
      spellColumns rest (live.flatMap (fun state =>
        (spellings live.length column).map (fun name =>
          state ++ [ofColumn column name])))

/-- The declarations of so many columns of a table that are accepted. -/
def acceptedDeclarations (table : TableDef) (name : String) (count : Nat) :
    List Declaration :=
  (spellColumns (table.columns.take count) [[]]).map (fun columns =>
    ⟨name, columns, table.primaryKey, count⟩)

theorem bytes_nil
    (hash : UInt64) :
    bytes hash [] = hash :=
  rfl

theorem bytes_append
    (hash : UInt64) (first second : Bytes) :
    bytes hash (first ++ second) = bytes (bytes hash first) second :=
  foldl_append

theorem bytes_ofColumn
    (ordinal : Ordinal) (column : ColumnDef) (hash : UInt64) (name : String) :
    bytes hash ((ofColumn column name).bytes ordinal) =
      spell ordinal column hash name := by
  simp only [DeclaredColumn.bytes, ofColumn, bytes_append, numberBytes,
    textBytes, spell, number, text]
  cases column.decimalScale <;> cases column.elementType <;>
    simp only [Option.elim, bytes_append, bytes_nil]

theorem columnsBytes_append
    (ordinal : Ordinal) (columns : List DeclaredColumn)
    (column : DeclaredColumn) :
    columnsBytes ordinal (columns ++ [column]) = columnsBytes ordinal columns ++
        column.bytes (ordinal + columns.length) := by
  induction columns generalizing ordinal with
  | nil => simp [columnsBytes]
  | cons first rest ih =>
      rw [cons_append, columnsBytes, ih, columnsBytes,
        append_assoc, length_cons, Nat.add_assoc, Nat.add_comm 1]

variable {live : List (List DeclaredColumn)}

theorem spellAll_eq
    (hash : UInt64) (columns : List ColumnDef)
    (spelled : ∀ state ∈ live, state.length = ordinal) :
    spellAll ordinal columns
        (live.map (fun state => bytes hash (columnsBytes 0 state))) =
      (spellColumns columns live).map (fun state =>
        bytes hash (columnsBytes 0 state)) := by
  induction columns generalizing ordinal live with
  | nil => rfl
  | cons column rest ih =>
      rw [spellAll, spellColumns, ← @ih (ordinal + 1),
        length_map, flatMap_map, map_flatMap]
      · congr 1
        refine flatMap_congr (fun state member => ?_)
        rw [map_map]
        refine map_congr_left (fun name _ => ?_)
        rw [Function.comp, columnsBytes_append, bytes_append, bytes_ofColumn,
          spelled state member, Nat.zero_add]
      · intro state member
        obtain ⟨start, isLive, member⟩ := mem_flatMap.mp member
        obtain ⟨name, -, rfl⟩ := mem_map.mp member
        rw [length_append, spelled start isLive]
        rfl

theorem bytes_flatMap_numberBytes
    (hash : UInt64) (numbers : List Nat) :
    bytes hash (numbers.flatMap numberBytes) = numbers.foldl number hash := by
  induction numbers generalizing hash with
  | nil => rfl
  | cons first rest ih =>
      rw [flatMap_cons, bytes_append, ih, numberBytes, bytes_append]
      rfl

theorem accepted_eq
    (table : TableDef) (name : String) (count : Nat) :
    accepted table name count =
      (acceptedDeclarations table name count).map (fun declared =>
        bytes FNV_OFFSET declared.bytes) := by
  have started : [text (bytes FNV_OFFSET (utf8 "slate.v1.schema/1")) name] =
      [([] : List DeclaredColumn)].map (fun state =>
        bytes (bytes FNV_OFFSET (utf8 "slate.v1.schema/1" ++ textBytes name))
          (columnsBytes 0 state)) := by
    simp only [map, columnsBytes, textBytes, bytes_append, bytes_nil, text]
  rw [accepted, acceptedDeclarations]
  dsimp only
  rw [started, spellAll_eq _ _ (by simp), map_map, map_map]
  refine map_congr_left (fun columns _ => ?_)
  simp only [Function.comp, Declaration.bytes, bytes_append,
    bytes_flatMap_numberBytes, number, numberBytes]

/-! ## What is accepted -/

/-- A column declared under a name that it has or had. -/
def Spells (column : ColumnDef) (declared : DeclaredColumn) : Prop :=
  ∃ name ∈ column.name :: column.previousNames, declared = ofColumn column name

/-- A declaration of so many columns of a table. -/
structure Declaration.Of (declared : Declaration) (table : TableDef)
    (name : String) (count : Nat) : Prop where
  name : declared.name = name
  columns : List.Forall₂ Spells (table.columns.take count) declared.columns
  key : declared.key = table.primaryKey
  count : declared.count = count

/-- How many spellings columns have. -/
def spellingCount : List ColumnDef → Nat
  | [] => 1
  | column :: rest => (column.previousNames.length + 1) * spellingCount rest

theorem spellingCount_pos
    (columns : List ColumnDef) :
    0 < spellingCount columns := by
  induction columns with
  | nil => exact Nat.one_pos
  | cons column rest ih => exact Nat.mul_pos (Nat.succ_pos _) ih

variable {columns : List ColumnDef} {declared : List DeclaredColumn}

theorem spells_of_mem_spellColumns
    (member : declared ∈ spellColumns columns live) :
    ∃ state ∈ live, ∃ rest, declared = state ++ rest ∧
      List.Forall₂ Spells columns rest := by
  induction columns generalizing live with
  | nil => exact ⟨declared, member, [], (append_nil _).symm, .nil⟩
  | cons column columns ih =>
      obtain ⟨state, isTried, rest, rfl, spells⟩ := ih member
      obtain ⟨start, isLive, isTried⟩ := mem_flatMap.mp isTried
      obtain ⟨name, isName, rfl⟩ := mem_map.mp isTried
      refine ⟨start, isLive, ofColumn column name :: rest, by simp,
        .cons ⟨name, ?_, rfl⟩ spells⟩
      rw [spellings] at isName
      split at isName
      · exact mem_of_mem_take isName
      · exact isName

theorem mem_spellColumns
    (spells : List.Forall₂ Spells columns declared)
    (capped : live.length * spellingCount columns ≤ MAX_SPELLINGS)
    {state : List DeclaredColumn}
    (isLive : state ∈ live) :
    state ++ declared ∈ spellColumns columns live := by
  induction spells generalizing live state with
  | nil => rwa [append_nil]
  | @cons column _ columns rest spelled spells ih =>
      obtain ⟨name, isName, rfl⟩ := spelled
      rw [spellingCount, ← Nat.mul_assoc] at capped
      have all : spellings live.length column =
          column.name :: column.previousNames := by
        have few := (Nat.le_mul_of_pos_right _ (spellingCount_pos columns)).trans capped
        rw [spellings]
        exact if_neg (Nat.not_lt.mpr few)
      rw [spellColumns, append_cons]
      refine ih ?_ ?_
      · simpa [all] using capped
      · rw [all]
        exact mem_flatMap.mpr ⟨state, isLive, mem_map.mpr ⟨name, isName, rfl⟩⟩

variable {table : TableDef} {name : String}

theorem of_mem_acceptedDeclarations
    {count : Nat} {declared : Declaration}
    (member : declared ∈ acceptedDeclarations table name count) :
    declared.Of table name count := by
  obtain ⟨columns, isTried, rfl⟩ := mem_map.mp member
  obtain ⟨state, isStart, rest, rfl, spells⟩ := spells_of_mem_spellColumns isTried
  rw [mem_singleton.mp isStart]
  exact ⟨rfl, spells, rfl, rfl⟩

theorem mem_acceptedDeclarations
    {count : Nat}
    (capped : spellingCount (table.columns.take count) ≤ MAX_SPELLINGS)
    {declared : Declaration} (isOf : declared.Of table name count) :
    declared ∈ acceptedDeclarations table name count := by
  have member := @mem_spellColumns [[]] _ _ isOf.columns
    (by simpa using capped) [] (mem_singleton.mpr rfl)
  refine mem_map.mpr ⟨declared.columns, member, ?_⟩
  exact Declaration.ext isOf.name.symm rfl isOf.key.symm isOf.count.symm

/-! ## Earlier versions -/

/-- A change to the columns of a table that moves none of them. -/
inductive ColumnsChange : List ColumnDef → List ColumnDef → Prop where
  | appended (columns : List ColumnDef) (column : ColumnDef) :
      ColumnsChange columns (columns ++ [column])
  | dropped {columns : List ColumnDef} {ordinal : Ordinal} {column : ColumnDef}
      (found : columns[ordinal]? = some column)
      (version : UInt32) :
      ColumnsChange columns
        (columns.set ordinal { column with droppedIn := some version })
  | renamed {columns : List ColumnDef} {ordinal : Ordinal} {column : ColumnDef}
      (found : columns[ordinal]? = some column)
      (name : String)
      (previous : List String)
      (kept : ∀ known ∈ column.name :: column.previousNames, known ∈ name :: previous) :
      ColumnsChange columns (columns.set ordinal
        { column with name := name, previousNames := previous })

/-- A version of a table before any number of changes to its columns. -/
structure EarlierVersion (earlier table : TableDef) : Prop where
  key : table.primaryKey = earlier.primaryKey
  columns : Relation.ReflTransGen ColumnsChange earlier.columns table.columns

/-- What a client declares that knows a table by a name. -/
def declaration (table : TableDef) (name : String) : Declaration where
  name := name
  columns := table.columns.map (fun column => ofColumn column column.name)
  key := table.primaryKey
  count := table.columns.length

/-- Columns that still answer to what they were declared as. -/
def Answers (columns : List ColumnDef) (declared : List DeclaredColumn) :
    Prop :=
  ∀ (ordinal : Nat) (column : DeclaredColumn), declared[ordinal]? = some column →
      ∃ current : ColumnDef, columns[ordinal]? = some current ∧ Spells current column

theorem answers_set
    (answers : Answers columns declared) {column changed : ColumnDef}
    (found : columns[ordinal]? = some column)
    (keeps : ∀ declared, Spells column declared → Spells changed declared) :
    Answers (columns.set ordinal changed) declared := by
  intro place spelled isDeclared
  obtain ⟨current, isCurrent, spells⟩ := answers place spelled isDeclared
  by_cases same : ordinal = place
  · subst same
    rw [found] at isCurrent
    obtain rfl := Option.some.inj isCurrent
    refine ⟨changed, ?_, keeps spelled spells⟩
    rw [getElem?_set_self (List.getElem?_eq_some_iff.mp found).1]
  · exact ⟨current, (getElem?_set_ne same).trans isCurrent, spells⟩

theorem answers_of_change
    {later : List ColumnDef} (change : ColumnsChange columns later)
    (answers : Answers columns declared) :
    Answers later declared := by
  cases change with
  | appended column =>
      intro ordinal spelled isDeclared
      obtain ⟨current, isCurrent, spells⟩ := answers ordinal spelled isDeclared
      have inside := (List.getElem?_eq_some_iff.mp isCurrent).1
      exact ⟨current, (getElem?_append_left inside).trans isCurrent, spells⟩
  | dropped found version =>
      refine answers_set answers found ?_
      rintro _ ⟨name, isName, rfl⟩
      exact ⟨name, isName, rfl⟩
  | renamed found name previous kept =>
      refine answers_set answers found ?_
      rintro _ ⟨known, isName, rfl⟩
      exact ⟨known, kept known isName, rfl⟩

theorem EarlierVersion.of_declaration
    {earlier : TableDef} (version : EarlierVersion earlier table)
    (name : String) :
    (declaration earlier name).Of table name earlier.columns.length := by
  have answers : Answers table.columns (declaration earlier name).columns := by
    have changes := version.columns
    generalize table.columns = columns at changes ⊢
    induction changes with
    | refl =>
        intro ordinal spelled isDeclared
        rw [declaration, getElem?_map] at isDeclared
        obtain ⟨column, found, rfl⟩ := Option.map_eq_some_iff.mp isDeclared
        exact ⟨column, found, column.name, mem_cons_self, rfl⟩
    | tail _ change ih => exact answers_of_change change ih
  refine ⟨rfl, forall₂_iff_get.mpr ?_, version.key.symm, rfl⟩
  have reaches : earlier.columns.length ≤ table.columns.length := by
    by_contra shorter
    have inside : table.columns.length < earlier.columns.length := by omega
    obtain ⟨current, found, -⟩ := answers table.columns.length _
      (getElem?_eq_getElem (by simpa [declaration] using inside))
    simp at found
  refine ⟨by simp [declaration, reaches], fun ordinal bound bound' => ?_⟩
  obtain ⟨current, found, spells⟩ := answers ordinal _ (getElem?_eq_getElem bound')
  obtain ⟨inside, rfl⟩ := List.getElem?_eq_some_iff.mp found
  simpa using spells

/-- A claim is taken when it reaches the key, and its hash is accepted. -/
theorem checkNamed_eq_ok_iff
    {claim : SchemaCheck} :
    checkNamed table name (some claim) = .ok () ↔
      claim.columns.toNat ≤ table.columns.length ∧
        (∀ key ∈ table.primaryKey, key < claim.columns.toNat) ∧
        claim.fingerprint ∈ accepted table name claim.columns.toNat := by
  rw [checkNamed]
  split
  · next tooMany =>
      exact iff_of_false (by simp) (fun taken => Nat.not_lt.mpr taken.1 tooMany)
  · next fits =>
      cases stops : table.primaryKey.find?
          (fun key => decide (claim.columns.toNat ≤ key)) with
      | some key =>
          have isStop : claim.columns.toNat ≤ key := by
            simpa using find?_some stops
          exact iff_of_false (by simp) (fun taken => Nat.not_lt.mpr isStop
            (taken.2.1 key (mem_of_find?_eq_some stops)))
      | none =>
          have reaches : ∀ key ∈ table.primaryKey, key < claim.columns.toNat := by
            intro key isKey
            simpa using find?_eq_none.mp stops key isKey
          dsimp only
          split
          · next isAccepted =>
              exact iff_of_true rfl ⟨Nat.not_lt.mp fits, reaches,
                contains_iff_mem.mp isAccepted⟩
          · next notAccepted =>
              exact iff_of_false (by simp) (fun taken =>
                notAccepted (contains_iff_mem.mpr taken.2.2))

theorem EarlierVersion.checkNamed_eq_ok
    {earlier : TableDef} (version : EarlierVersion earlier table)
    (built : ∃ builder : TableBuilder, builder.build = .ok earlier)
    (capped : spellingCount (table.columns.take earlier.columns.length) ≤ MAX_SPELLINGS)
    {claim : SchemaCheck}
    (counted : claim.columns.toNat = earlier.columns.length)
    (hashed : claim.fingerprint = bytes FNV_OFFSET (declaration earlier name).bytes) :
    checkNamed table name (some claim) = .ok () := by
  have isOf := version.of_declaration name
  obtain ⟨builder, built⟩ := built
  have wellFormed := TableBuilder.build_wellFormed built
  refine checkNamed_eq_ok_iff.mpr ⟨?_, fun key isKey => ?_, ?_⟩
  · have same := isOf.columns.length_eq
    simp only [length_take, declaration, length_map] at same
    omega
  · obtain ⟨column, found, -⟩ := wellFormed.key key (version.key ▸ isKey)
    exact counted ▸ (List.getElem?_eq_some_iff.mp found).1
  · rw [counted, accepted_eq, hashed]
    exact mem_map.mpr ⟨_, mem_acceptedDeclarations capped isOf, rfl⟩

/--
The bytes hashed for a declaration determine it.  A claim is taken exactly when
it names no more columns than there are, reaches the key and has a hash that the
table accepts, and these are the hashes of declarations: what its earlier
versions declare is taken within the cap on spellings, and a declaration that is
not one of the table has other bytes than each that is accepted.
-/
theorem declarations_exact :
    (∀ declared other : Declaration, declared.bytes = other.bytes → declared = other) ∧
    (∀ (table : TableDef) (name : String) (count : Nat), accepted table name count =
        (acceptedDeclarations table name count).map (fun declared =>
          bytes FNV_OFFSET declared.bytes)) ∧
    (∀ (table : TableDef) (name : String) (claim : SchemaCheck),
      checkNamed table name (some claim) = .ok () ↔
        claim.columns.toNat ≤ table.columns.length ∧
          (∀ key ∈ table.primaryKey, key < claim.columns.toNat) ∧
          claim.fingerprint ∈ accepted table name claim.columns.toNat) ∧
    (∀ earlier table : TableDef, EarlierVersion earlier table →
      (∃ builder : TableBuilder, builder.build = .ok earlier) →
        spellingCount (table.columns.take earlier.columns.length) ≤ MAX_SPELLINGS →
          ∀ (name : String) (claim : SchemaCheck),
            claim.columns.toNat = earlier.columns.length →
            claim.fingerprint = bytes FNV_OFFSET (declaration earlier name).bytes →
              checkNamed table name (some claim) = .ok ()) ∧
    ∀ (table : TableDef) (name : String) (count : Nat)
      (declared : Declaration), ¬ declared.Of table name count →
        ∀ other ∈ acceptedDeclarations table name count,
          declared.bytes ≠ other.bytes := by
  refine ⟨fun _ _ => Declaration.bytes_injective, accepted_eq,
    fun _ _ _ => checkNamed_eq_ok_iff, ?_, ?_⟩
  · intro earlier table version built capped name claim counted hashed
    exact version.checkNamed_eq_ok built capped counted hashed
  · intro table name count declared notOf other isAccepted same
    rw [Declaration.bytes_injective same] at notOf
    exact notOf (of_mem_acceptedDeclarations isAccepted)

end Fingerprint

end SlateOrm
