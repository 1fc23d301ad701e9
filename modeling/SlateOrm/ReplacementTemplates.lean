import SlateOrm.DecimalNumerals
import SlateOrm.Scalar

namespace SlateOrm

/-!
# Replacement templates

A replacement is written with the references of SQL and handed to the
regular-expression engine as a template of its own.  Both are read as pieces of
literal text and references to groups.  A reference of the template goes on as
long as what follows can be part of a name, one of SQL ends with its digit.
-/

/-! ## Pieces -/

/-- What a reference names: the index of a group, or its name. -/
inductive GroupName where
  | index (number : Nat)
  | named (text : List Char)
  deriving DecidableEq, Repr

/-- A part of what a match is replaced with. -/
inductive Piece where
  | literal (char : Char)
  | group (name : GroupName)
  deriving DecidableEq, Repr

/-! ## The reading of SQL -/

/-- The pieces of a replacement that is written in SQL. -/
def readReplacement : List Char → List Piece
  | [] => []
  | '\\' :: char :: rest =>
      if char.isDigit then
        .group (.index (digitsNumber [char])) :: readReplacement rest
      else if char = '\\' then
        .literal '\\' :: readReplacement rest
      else
        .literal '\\' :: .literal char :: readReplacement rest
  | char :: rest => .literal char :: readReplacement rest

/-! ## The reading of the engine -/

/-- Whether a character goes on with a name that is not in braces. -/
def isNameChar (char : Char) : Bool := char.isAlphanum || char == '_'

/-- No reference is followed by a literal that could go on with its name. -/
def Piece.Apart : Piece → Piece → Prop
  | .group _, .literal char => isNameChar char = false
  | _, _ => True

/-- A name that is a number is the index of a group. -/
def groupName (text : List Char) : GroupName :=
  match parseUnsigned UInt64.size text with
  | some number => .index number
  | none => .named text

theorem length_lt_of_splitOnce
    {separator : Char} {text before after : List Char}
    (split : splitOnce separator text = some (before, after)) :
    after.length < text.length := by
  have same := congrArg List.length (eq_append_of_splitOnce split)
  simp only [List.length_append, List.length_cons] at same
  omega

/-- The pieces of a template; a dollar that starts no reference is literal. -/
def readTemplate : List Char → List Piece
  | [] => []
  | '$' :: '$' :: rest => .literal '$' :: readTemplate rest
  | '$' :: '{' :: rest =>
      match _braced : splitOnce '}' rest with
      | some (name, after) => .group (groupName name) :: readTemplate after
      | none => .literal '$' :: readTemplate ('{' :: rest)
  | '$' :: rest =>
      if rest.takeWhile isNameChar = [] then
        .literal '$' :: readTemplate rest
      else
        .group (groupName (rest.takeWhile isNameChar)) ::
          readTemplate (rest.dropWhile isNameChar)
  | char :: rest => .literal char :: readTemplate rest
termination_by text => text.length
decreasing_by
  all_goals
    simp only [List.length_cons]
  · omega
  · have shorter := length_lt_of_splitOnce _braced
    omega
  · omega
  · omega
  · have shorter := List.length_dropWhile_le isNameChar rest
    omega
  · omega

/-! ## Reading one piece -/

variable {char : Char}

theorem isNameChar_of_isDigit
    (isDigit : char.isDigit = true) :
    isNameChar char = true := by
  simp [isNameChar, Char.isAlphanum, isDigit]

theorem ne_of_isNameChar
    {other : Char}
    (isName : isNameChar char = true)
    (isNot : isNameChar other = false) :
    char ≠ other := by
  rintro rfl
  simp [isNot] at isName

theorem readTemplate_literal
    (notDollar : char ≠ '$')
    (rest : List Char) :
    readTemplate (char :: rest) = .literal char :: readTemplate rest := by
  rw [readTemplate] <;> simp [notDollar]

@[simp] theorem readTemplate_dollars
    (rest : List Char) :
    readTemplate ('$' :: '$' :: rest) = .literal '$' :: readTemplate rest := by
  rw [readTemplate]

variable {digit : Char}

theorem readTemplate_reference
    (isDigit : digit.isDigit = true)
    (rest : List Char) :
    readTemplate ('$' :: digit :: rest) =
      .group (groupName (digit :: rest.takeWhile isNameChar)) ::
        readTemplate (rest.dropWhile isNameChar) := by
  have isName := isNameChar_of_isDigit isDigit
  rw [readTemplate]
  · simp [isName]
  · exact fun _ same => ne_of_isNameChar isName rfl (List.cons.inj same).1
  · exact fun _ same => ne_of_isNameChar isName rfl (List.cons.inj same).1

theorem groupName_digit
    (isDigit : digit.isDigit = true) :
    groupName [digit] = .index (digitsNumber [digit]) := by
  have all : ∀ char ∈ [digit], char.isDigit = true := by
    simpa using isDigit
  have small : digitsNumber [digit] < UInt64.size :=
    (digitsNumber_lt all).trans (by norm_num [UInt64.size])
  simp only [groupName, digitsNumber] at small ⊢
  simp only [parseUnsigned_of_digits UInt64.size (List.cons_ne_nil digit [])
    all, if_pos small]

/-! ## Reading a translation -/

/-- A literal that the engine reads first is the first character. -/
theorem head?_of_head?_readTemplate
    {text : List Char}
    (first : (readTemplate text).head? = some (.literal char)) :
    text.head? = some char := by
  fun_cases readTemplate text with
  | case1 => simp [readTemplate] at first
  | case2 rest => simpa [readTemplate] using first
  | case3 rest name after braced =>
      simp only [readTemplate] at first
      split at first
      · simp at first
      · simp_all
  | case4 rest open_ =>
      simp only [readTemplate] at first
      split at first
      · simp at first
      · simpa using first
  | case5 rest notDollar notBrace alone =>
      rw [readTemplate, if_pos alone] at first
      · simpa using first
      · exact notDollar
      · exact notBrace
  | case6 rest notDollar notBrace named =>
      rw [readTemplate, if_neg named] at first
      · simp at first
      · exact notDollar
      · exact notBrace
  | case7 other rest notDollars notBraced notDollar =>
      rw [readTemplate_literal notDollar] at first
      simpa using first

theorem head?_backreferences_iff
    (isName : isNameChar char = true)
    (text : List Char) :
    (backreferencesChars text).head? = some char ↔
      (readReplacement text).head? = some (.literal char) := by
  have notDollar : '$' ≠ char := (ne_of_isNameChar isName rfl).symm
  have notSlash : '\\' ≠ char := (ne_of_isNameChar isName rfl).symm
  fun_cases backreferencesChars text with
  | case1 => simp [readReplacement]
  | case2 digit rest isDigit => simp [readReplacement, isDigit, notDollar]
  | case3 rest => simp [readReplacement]
  | case4 rest => simp [readReplacement]
  | case5 other rest notDigit notEscaped notDollar =>
      simp [readReplacement, notDigit, notEscaped]
  | case6 => simp [readReplacement]
  | case7 rest => simp [readReplacement]
  | case8 other rest notEscape notSlash notDollar =>
      rw [readReplacement]
      · simp
      · exact notEscape

/-! ## The two readings -/

theorem takeWhile_backreferences_iff
    (rest : List Char) :
    (backreferencesChars rest).takeWhile isNameChar = [] ↔
      ∀ char, (readReplacement rest).head? = some (.literal char) →
        isNameChar char = false := by
  have starts : (backreferencesChars rest).takeWhile isNameChar = [] ↔
        ∀ char, (backreferencesChars rest).head? = some char →
          isNameChar char = false := by
    cases backreferencesChars rest with
    | nil => simp
    | cons first others => simp [List.takeWhile_cons]
  rw [starts]
  constructor
  · intro ends char first
    by_contra isName
    rw [Bool.not_eq_false] at isName
    exact absurd (ends char ((head?_backreferences_iff isName rest).mpr first))
      (by simp [isName])
  · intro ends char first
    by_contra isName
    rw [Bool.not_eq_false] at isName
    exact absurd (ends char ((head?_backreferences_iff isName rest).mp first))
      (by simp [isName])

@[simp] theorem apart_literal
    (char : Char) (piece : Piece) :
    (Piece.literal char).Apart piece :=
  trivial

@[simp] theorem isChain_literal
    (char : Char) (pieces : List Piece) :
    (Piece.literal char :: pieces).IsChain Piece.Apart ↔
      pieces.IsChain Piece.Apart := by
  simp [List.isChain_cons]

theorem isChain_group
    (name : GroupName) (pieces : List Piece) :
    (Piece.group name :: pieces).IsChain Piece.Apart ↔
      (∀ char, pieces.head? = some (.literal char) →
        isNameChar char = false) ∧ pieces.IsChain Piece.Apart := by
  rw [List.isChain_cons]
  refine and_congr_left fun _ => ⟨fun apart char first => apart _ first, ?_⟩
  intro ends piece first
  cases piece with
  | literal char => exact ends char first
  | group name => trivial

theorem readTemplate_reference_iff
    (isDigit : digit.isDigit = true)
    (rest : List Char) :
    readTemplate ('$' :: digit :: backreferencesChars rest) =
        .group (.index (digitsNumber [digit])) :: readReplacement rest ↔
      (∀ char, (readReplacement rest).head? = some (.literal char) →
        isNameChar char = false) ∧
      readTemplate (backreferencesChars rest) = readReplacement rest := by
  rw [readTemplate_reference isDigit, ← takeWhile_backreferences_iff]
  by_cases ends : (backreferencesChars rest).takeWhile isNameChar = []
  · have all : (backreferencesChars rest).dropWhile isNameChar =
        backreferencesChars rest := by
      simpa [ends] using List.takeWhile_append_dropWhile
        (l := backreferencesChars rest) (p := isNameChar)
    simp only [ends, all, groupName_digit isDigit, List.cons.injEq, true_and]
  · -- The literal that the name has taken in is missing from the template.
    refine iff_of_false ?_ fun ⟨nothing, _⟩ => ends nothing
    intro same
    have tails := (List.cons.inj same).2
    rw [takeWhile_backreferences_iff] at ends
    push Not at ends
    obtain ⟨char, first, isName⟩ := ends
    rw [← tails] at first
    have left := head?_of_head?_readTemplate first
    have dropped := List.head?_dropWhile_not isNameChar (backreferencesChars rest)
    simp_all

theorem readTemplate_backreferencesChars_iff
    (text : List Char) :
    readTemplate (backreferencesChars text) = readReplacement text ↔
      (readReplacement text).IsChain Piece.Apart := by
  fun_induction backreferencesChars text with
  | case1 => simp [readTemplate, readReplacement]
  | case2 digit rest isDigit ih =>
      simp only [readReplacement, isDigit, if_true]
      rw [readTemplate_reference_iff isDigit, isChain_group, ih]
  | case3 rest notDigit ih =>
      rw [readTemplate_literal (by decide)]
      simpa [readReplacement] using ih
  | case4 rest notDigit notEscaped ih =>
      rw [readTemplate_literal (by decide), readTemplate_dollars]
      simpa [readReplacement] using ih
  | case5 char rest notDigit notEscaped notDollar ih =>
      rw [readTemplate_literal (by decide), readTemplate_literal notDollar]
      simpa [readReplacement, notDigit, notEscaped] using ih
  | case6 => simp [readTemplate, readReplacement]
  | case7 rest ih =>
      rw [readTemplate_dollars]
      simpa [readReplacement] using ih
  | case8 char rest notEscape notSlash notDollar ih =>
      rw [readTemplate_literal notDollar, readReplacement]
      · simpa using ih
      · exact notEscape

/-- The template of a replacement has the pieces of the replacement just when no
reference is followed by a letter, a digit or an underscore. -/
theorem readTemplate_backreferences_iff
    (replacement : String) :
    readTemplate (backreferences replacement).toList =
        readReplacement replacement.toList ↔
      (readReplacement replacement.toList).IsChain Piece.Apart := by
  rw [backreferences, String.toList_ofList]
  exact readTemplate_backreferencesChars_iff replacement.toList

/-- The first group before a literal letter becomes a group of another name. -/
theorem readTemplate_backreferences_letter :
    readTemplate (backreferences "\\1a").toList ≠ readReplacement "\\1a".toList := by
  have translated : (backreferences "\\1a").toList = ['$', '1', 'a'] := by
    decide
  rw [translated, readTemplate_reference (by decide)]
  decide

end SlateOrm
