import Mathlib.Data.List.TakeWhile

namespace SlateOrm

open List

/-!
# Text in lines

Line-oriented text as characters: how it falls into lines, what a line holds
after a label or a separator, and the decimal numbers it carries.  Each reading
function comes with what it reads back from text that was written plainly.
-/

/-! ## Lines -/

/-- The lines of a text; a line ends at a newline, which may follow a return. -/
def textLines : List Char → List (List Char)
  | [] => []
  | '\r' :: '\n' :: rest => [] :: textLines rest
  | '\n' :: rest => [] :: textLines rest
  | char :: rest =>
      match textLines rest with
      | [] => [[char]]
      | line :: lines => (char :: line) :: lines

/-- A text that stays on its line. -/
def OneLine (text : List Char) : Prop := ∀ char ∈ text, char ≠ '\n' ∧ char ≠ '\r'

variable {text : List Char} {char : Char} {separator : Char}
  {space : Char → Bool}

theorem oneLine_of_all
    (all : text.all (fun char => char != '\n' && char != '\r') = true) :
    OneLine text := by
  intro char member
  have plain := all_eq_true.mp all char member
  simpa using plain

/-- A character that ends no line stands before the first of those that follow. -/
theorem textLines_cons
    (notNewline : char ≠ '\n')
    (notReturn : char ≠ '\r')
    (rest : List Char) :
    textLines (char :: rest) =
      match textLines rest with
      | [] => [[char]]
      | line :: lines => (char :: line) :: lines := by
  rw [textLines.eq_def]
  split
  · rename_i isNil
    cases isNil
  · rename_i same
    exact absurd (cons.inj same).1 notReturn
  · rename_i same
    exact absurd (cons.inj same).1 notNewline
  · rename_i same
    obtain ⟨rfl, rfl⟩ := cons.inj same
    rfl

/-- Text that stays on its line is the first line of what it starts. -/
theorem textLines_append_newline
    {line : List Char} (oneLine : OneLine line) (rest : List Char) :
    textLines (line ++ '\n' :: rest) = line :: textLines rest := by
  induction line with
  | nil => rw [nil_append, textLines]
  | cons char line ih =>
      obtain ⟨⟨notNewline, notReturn⟩, others⟩ := forall_mem_cons.mp oneLine
      rw [cons_append, textLines_cons notNewline notReturn, ih others]

/-! ## Fields -/

/-- What stands before and after the first separator. -/
def splitOnce (separator : Char) : List Char → Option (List Char × List Char)
  | [] => none
  | char :: rest =>
      if char = separator then
        some ([], rest)
      else
        (splitOnce separator rest).map (fun (before, after) => (char :: before, after))

/-- A label without the separator is what stands before the first one. -/
theorem splitOnce_append
    {label : List Char}
    (free : separator ∉ label)
    (rest : List Char) :
    splitOnce separator (label ++ separator :: rest) = some (label, rest) := by
  induction label with
  | nil => exact if_pos rfl
  | cons char label ih =>
      rw [mem_cons, not_or] at free
      rw [cons_append, splitOnce, if_neg (Ne.symm free.1), ih free.2]
      rfl

/-- The two parts of a text make it up again, the separator between them. -/
theorem eq_append_of_splitOnce
    {text before after : List Char}
    (split : splitOnce separator text = some (before, after)) :
    text = before ++ separator :: after := by
  induction text generalizing before with
  | nil => cases split
  | cons char text ih =>
      rw [splitOnce] at split
      by_cases isSeparator : char = separator
      · rw [if_pos isSeparator] at split
        cases split
        rw [isSeparator, nil_append]
      · rw [if_neg isSeparator, Option.map_eq_some_iff] at split
        obtain ⟨⟨rest, _⟩, splitRest, same⟩ := split
        cases same
        rw [ih splitRest, cons_append]

/-- A text without the separator has no parts. -/
theorem splitOnce_of_free
    (free : separator ∉ text) :
    splitOnce separator text = none := by
  induction text with
  | nil => rfl
  | cons char text ih =>
      rw [mem_cons, not_or] at free
      rw [splitOnce, if_neg (Ne.symm free.1), ih free.2]
      rfl

/-- Drop what `space` accepts on either side. -/
def trimText (space : Char → Bool) (text : List Char) : List Char :=
  ((text.dropWhile space).reverse.dropWhile space).reverse

/-- A text without blanks is not trimmed. -/
theorem trimText_of_plain
    (plain : ∀ char ∈ text, space char = false) :
    trimText space text = text := by
  have dropped : ∀ kept : List Char, (∀ char ∈ kept, space char = false) →
      kept.dropWhile space = kept := by
    intro kept all
    cases kept with
    | nil => rfl
    | cons first kept => exact dropWhile_cons_of_neg (by simp [all first])
  unfold trimText
  rw [dropped text plain, dropped, reverse_reverse]
  intro char member
  exact plain char (mem_reverse.mp member)

/-- A blank at the front is trimmed. -/
theorem trimText_cons
    (isSpace : space char = true)
    (text : List Char) :
    trimText space (char :: text) = trimText space text := by
  unfold trimText
  rw [dropWhile_cons_of_pos isSpace]

/-- What is trimmed off a text is blanks on either side. -/
theorem exists_trimText
    (space : Char → Bool) (text : List Char) :
    ∃ before after : List Char, (∀ char ∈ before, space char = true) ∧
      (∀ char ∈ after, space char = true) ∧
      text = before ++ trimText space text ++ after := by
  refine ⟨text.takeWhile space, ((text.dropWhile space).reverse.takeWhile
    space).reverse, fun char member => mem_takeWhile_imp member, fun char
    member => mem_takeWhile_imp (mem_reverse.mp member), ?_⟩
  have ending : trimText space text ++
      ((text.dropWhile space).reverse.takeWhile space).reverse =
        text.dropWhile space := by
    rw [trimText, ← reverse_append, takeWhile_append_dropWhile, reverse_reverse]
  rw [append_assoc, ending, takeWhile_append_dropWhile]

/-- Blanks around a plain text are trimmed, and nothing else is. -/
theorem trimText_between
    {before text after : List Char}
    (opens : ∀ char ∈ before, space char = true)
    (plain : ∀ char ∈ text, space char = false)
    (closes : ∀ char ∈ after, space char = true) :
    trimText space (before ++ text ++ after) = trimText space text := by
  have drops : ∀ spaces rest : List Char, (∀ char ∈ spaces, space char = true) →
        (spaces ++ rest).dropWhile space = rest.dropWhile space := by
    intro spaces rest all
    induction spaces with
    | nil => rfl
    | cons first spaces ih =>
        have isSpace := all first mem_cons_self
        rw [cons_append, dropWhile_cons_of_pos isSpace]
        exact ih fun char member => all char (mem_cons_of_mem _ member)
  unfold trimText
  rw [append_assoc, drops before _ opens]
  cases text with
  | nil =>
      have none_ : after.dropWhile space = [] := by
        simpa using drops after [] closes
      simp [none_]
  | cons first text =>
      have isPlain : ¬ space first = true := by
        simp [plain first mem_cons_self]
      rw [cons_append, dropWhile_cons_of_neg isPlain,
        dropWhile_cons_of_neg isPlain, ← cons_append, reverse_append]
      rw [drops after.reverse _ fun char member => closes char (mem_reverse.mp member)]

/-! ## Numbers -/

/-- The number a text spells, below a limit; a plus sign may stand before it. -/
def parseUnsigned (limit : Nat) (text : List Char) : Option Nat :=
  let digits :=
    match text with
    | '+' :: rest => rest
    | other => other
  if digits.isEmpty || !digits.all Char.isDigit then
    none
  else
    let number := Nat.ofDigitChars 10 digits 0
    if number < limit then some number else none

/-- A numeral is made of digits. -/
theorem isDigit_toDigits
    {number : Nat}
    (member : char ∈ Nat.toDigits 10 number) :
    char.isDigit = true :=
  Nat.isDigit_of_mem_toDigits (by decide) (by decide) member

/-- A numeral stays on its line. -/
theorem oneLine_toDigits
    (number : Nat) :
    OneLine (Nat.toDigits 10 number) := by
  intro char member
  have isDigit := isDigit_toDigits member
  refine ⟨?_, ?_⟩
  · rintro rfl
    exact absurd isDigit (by decide)
  · rintro rfl
    exact absurd isDigit (by decide)

theorem OneLine.append
    {first second : List Char} (oneLine : OneLine first)
    (another : OneLine second) :
    OneLine (first ++ second) := by
  intro char member
  rcases mem_append.mp member with inFirst | inSecond
  · exact oneLine char inFirst
  · exact another char inSecond

/-- Digits spell the number they stand for, if it is below the limit. -/
theorem parseUnsigned_of_digits
    {digits : List Char} (limit : Nat)
    (notNil : digits ≠ [])
    (all : ∀ char ∈ digits, char.isDigit = true) :
    parseUnsigned limit digits =
      if Nat.ofDigitChars 10 digits 0 < limit then
        some (Nat.ofDigitChars 10 digits 0)
      else
        none := by
  have notEmpty : digits.isEmpty = false := isEmpty_eq_false_iff.mpr notNil
  have allDigits : digits.all Char.isDigit = true := all_eq_true.mpr all
  unfold parseUnsigned
  split
  · -- No digit is a plus sign.
    have isDigit : Char.isDigit '+' = true := all '+' mem_cons_self
    exact absurd isDigit (by decide)
  · simp only [notEmpty, allDigits, Bool.not_true, Bool.or_self,
      Bool.false_eq_true, if_false]

/-- A numeral is read back as its number, if that is below the limit. -/
theorem parseUnsigned_toDigits
    (limit number : Nat) :
    parseUnsigned limit (Nat.toDigits 10 number) =
      if number < limit then some number else none := by
  rw [parseUnsigned_of_digits limit Nat.toDigits_ne_nil
    (fun _ => isDigit_toDigits), Nat.ofDigitChars_ten_toDigits]

end SlateOrm
