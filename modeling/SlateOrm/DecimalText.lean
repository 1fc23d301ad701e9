import SlateOrm.DecimalNumerals
import SlateOrm.LeaseTerm
import SlateOrm.TupleRoundTrip

namespace SlateOrm

open List

/-!
# Decimals as text

A decimal is a count of units of a scale, and it is read from the text of a
numeral that denotes exactly so many of them.  A numeral with more places than
the scale is read when nothing is lost, and one that is out of range is not.
-/

/-! ## Reading -/

/-- Why a text is not read as a decimal, with the text and what is wrong. -/
inductive DecimalError where
  | notDecimal (text : List Char)
  | tooManyPlaces (text : List Char) (written places : Nat) (dropped : List Char)
  | doesNotFit (text : List Char)
  deriving DecidableEq, Repr

/-- Take the sign off a text: whether it is that of a negative number. -/
def stripSign : List Char → Bool × List Char
  | '-' :: rest => (true, rest)
  | '+' :: rest => (false, rest)
  | text => (false, text)

/-- The text before the point and after it; without a point it is all before. -/
def splitPoint (digits : List Char) : List Char × List Char :=
  (splitOnce '.' digits).getD (digits, [])

/-- Read a text as a count of units of a scale. -/
def decimalFromStr (text : String) (scale : UInt8) : Except DecimalError Value :=
  let text := trimText isWhitespace text.toList
  let (negative, digits) := stripSign text
  let (whole, fraction) := splitPoint digits
  if whole.isEmpty ∧ fraction.isEmpty then
    .error (.notDecimal text)
  else
    let whole := if whole.isEmpty then ['0'] else whole
    if ¬ (whole.all Char.isDigit ∧ fraction.all Char.isDigit) then
      .error (.notDecimal text)
    else
      let places := scale.toNat
      let kept := fraction.take places
      let dropped := fraction.drop places
      -- Places that the scale does not have are left out when they are zeros.
      if ¬ dropped.all (· == '0') then
        .error (.tooManyPlaces text (kept.length + dropped.length) places dropped)
      else
        let units := whole ++ kept ++ List.replicate (places - kept.length) '0'
        match parseUnsigned (2 ^ 127) units with
        | none => .error (.doesNotFit text)
        | some magnitude =>
            let signed := if negative then -(magnitude : Int) else magnitude
            match TupleReader.tryI64 signed with
            | none => .error (.doesNotFit text)
            | some units => .ok (.decimal units)

/-! ## Writing -/

/-- An integer as it is written. -/
def i64ToString (number : Int64) : List Char :=
  (if number.toInt < 0 then ['-'] else []) ++ Nat.toDigits 10 number.toInt.natAbs

/-- Write a count of units of a scale. -/
def decimalToString (units : Int64) (scale : UInt8) : String :=
  let places := scale.toNat
  if places = 0 then
    String.ofList (i64ToString units)
  else
    let magnitude := Nat.toDigits 10 units.toInt.natAbs
    let padded := if magnitude.length ≤ places then
        List.replicate (places - magnitude.length + 1) '0' ++ magnitude
      else
        magnitude
    let split := padded.length - places
    String.ofList ((if units.toInt < 0 then ['-'] else []) ++
      padded.take split ++ '.' :: padded.drop split)

/-! ## What a text is taken apart into -/

variable {digits : List Char} {numeral : DecimalNumeral}

namespace DecimalNumeral

theorem point_notMem
    (all : ∀ char ∈ digits, char.isDigit = true) :
    '.' ∉ digits := by
  intro member
  exact absurd (all '.' member) (by decide)

theorem cases_of_mem_text
    {char : Char}
    (member : char ∈ numeral.text) :
    char.isDigit = true ∨ char = '+' ∨ char = '-' ∨ char = '.' := by
  rcases mem_append.mp member with inSign | inDigits
  · cases sign : numeral.sign <;> simp [sign, NumeralSign.text] at inSign
    · exact Or.inr (Or.inl inSign)
    · exact Or.inr (Or.inr (Or.inl inSign))
  · have isPlace := numeral.fractionDigits char
    rw [digits] at inDigits
    cases fraction : numeral.fraction with
    | none =>
        rw [fraction] at inDigits
        exact Or.inl (numeral.wholeDigits char inDigits)
    | some places =>
        rw [fraction] at inDigits isPlace
        rcases mem_append.mp inDigits with isWhole | after
        · exact Or.inl (numeral.wholeDigits char isWhole)
        rcases mem_cons.mp after with isPoint | isPlace'
        · exact Or.inr (Or.inr (Or.inr isPoint))
        · exact Or.inl (isPlace isPlace')

theorem isWhitespace_of_mem_text
    {char : Char}
    (member : char ∈ numeral.text) :
    isWhitespace char = false := by
  rcases cases_of_mem_text member with isDigit | rfl | rfl | rfl
  · exact Lease.isWhitespace_of_isDigit isDigit
  · decide
  · decide
  · decide

/-- The sign that is taken off a numeral is its own. -/
theorem stripSign_text
    (numeral : DecimalNumeral) :
    stripSign numeral.text = (numeral.sign.negative, numeral.digits) := by
  cases sign : numeral.sign with
  | plus
  | minus => simp [text, sign, NumeralSign.text, NumeralSign.negative, stripSign]
  | implicit =>
      have first : ∀ char rest, numeral.digits = char :: rest →
          char.isDigit = true ∨ char = '.' := by
        intro char rest isFirst
        have isPlace := numeral.fractionDigits
        rw [digits] at isFirst
        cases fraction : numeral.fraction with
        | none =>
            rw [fraction] at isFirst
            exact Or.inl (numeral.wholeDigits char (by simp [isFirst]))
        | some places =>
            rw [fraction] at isFirst
            cases whole : numeral.whole with
            | nil =>
                rw [whole] at isFirst
                exact Or.inr (cons.inj isFirst).1.symm
            | cons head _ =>
                rw [whole] at isFirst
                rw [← (cons.inj isFirst).1]
                exact Or.inl (numeral.wholeDigits head (by simp [whole]))
      simp only [text, sign, NumeralSign.text, NumeralSign.negative, nil_append]
      cases written : numeral.digits with
      | nil => rfl
      | cons char rest =>
          rw [stripSign.eq_def]
          split
          · next same =>
              obtain ⟨rfl, _⟩ := cons.inj same
              exact absurd (first _ _ written) (by decide)
          · next same =>
              obtain ⟨rfl, _⟩ := cons.inj same
              exact absurd (first _ _ written) (by decide)
          · rfl

theorem splitPoint_digits
    (numeral : DecimalNumeral) :
    splitPoint numeral.digits = (numeral.whole, numeral.places) := by
  have free := point_notMem numeral.wholeDigits
  rw [splitPoint, digits, places]
  cases numeral.fraction with
  | none => simp [splitOnce_of_free free]
  | some fraction => simp [splitOnce_append free]

/-- A text whose parts are digits is that of a numeral. -/
theorem exists_of_parts
    {text whole fraction : List Char} {negative : Bool}
    (stripped : stripSign text = (negative, digits))
    (split : splitPoint digits = (whole, fraction))
    (wholeDigits : ∀ char ∈ whole, char.isDigit = true)
    (fractionDigits : ∀ char ∈ fraction, char.isDigit = true)
    (someDigit : ¬ (whole = [] ∧ fraction = [])) :
    ∃ numeral : DecimalNumeral, numeral.text = text ∧
      numeral.sign.negative = negative ∧ numeral.whole = whole ∧
      numeral.places = fraction := by
  obtain ⟨sign, isNegative, isText⟩ : ∃ sign : NumeralSign,
      sign.negative = negative ∧ sign.text ++ digits = text := by
    rw [stripSign.eq_def] at stripped
    split at stripped
    · cases stripped
      exact ⟨.minus, rfl, rfl⟩
    · cases stripped
      exact ⟨.plus, rfl, rfl⟩
    · cases stripped
      exact ⟨.implicit, rfl, rfl⟩
  rw [splitPoint] at split
  cases found : splitOnce '.' digits with
  | none =>
      rw [found] at split
      cases split
      exact ⟨⟨sign, digits, none, wholeDigits, fractionDigits, someDigit⟩,
        isText, isNegative, rfl, rfl⟩
  | some parts =>
      rw [found] at split
      cases split
      refine ⟨⟨sign, _, some _, wholeDigits, fractionDigits, someDigit⟩,
        ?_, isNegative, rfl, rfl⟩
      rw [← isText, eq_append_of_splitOnce found]
      rfl

/-- A text denotes a number: it is a numeral for it, between white space. -/
def Denotes (text : String) (number : Rat) : Prop :=
  ∃ (before after : List Char) (numeral : DecimalNumeral),
    (∀ char ∈ before, isWhitespace char = true) ∧
    (∀ char ∈ after, isWhitespace char = true) ∧
    text.toList = before ++ numeral.text ++ after ∧
    numeral.value = number

end DecimalNumeral

/-! ## Exactness -/

theorem tryI64_eq_some_iff
    {number : Int} {value : Int64} :
    TupleReader.tryI64 number = some value ↔ value.toInt = number := by
  constructor
  · intro narrowed
    have same := TupleReader.asI128_of_tryI64 narrowed
    exact Option.some.inj same
  · rintro rfl
    exact TupleReader.tryI64_toInt value

theorem unitDigits_filled
    (whole fraction : List Char) (scale : Nat) :
    digitsNumber (DecimalNumeral.unitDigits
        (if whole.isEmpty then ['0'] else whole) fraction scale) =
      digitsNumber (DecimalNumeral.unitDigits whole fraction scale) := by
  cases whole with
  | nil => exact digitsNumber_zeros_append 1 _
  | cons _ _ => rfl

/-- Digits are narrowed to the units they spell when those are in range. -/
theorem narrowed_eq_ok_iff
    (notNil : digits ≠ [])
    (all : ∀ char ∈ digits, char.isDigit = true)
    (negative : Bool) (error : DecimalError) (value : Value) :
    (match parseUnsigned (2 ^ 127) digits with
      | none => Except.error error
      | some magnitude =>
          match TupleReader.tryI64
            (if negative then -(magnitude : Int) else magnitude) with
          | none => .error error
          | some units => .ok (Value.decimal units)) = .ok value ↔
      ∃ units : Int64, value = .decimal units ∧
        signedNumber negative (digitsNumber digits) = units.toInt := by
  rw [parseUnsigned_of_digits _ notNil all]
  change (match (if digitsNumber digits < 2 ^ 127 then
      some (digitsNumber digits) else none : Option Nat) with
    | none => Except.error error
    | some magnitude =>
        match TupleReader.tryI64 (signedNumber negative magnitude) with
        | none => .error error
        | some units => .ok (Value.decimal units)) = .ok value ↔ _
  by_cases small : digitsNumber digits < 2 ^ 127
  · simp only [small, ↓reduceIte]
    cases narrowed : TupleReader.tryI64
        (signedNumber negative (digitsNumber digits)) with
    | none =>
        refine iff_of_false (by simp) ?_
        rintro ⟨units, _, same⟩
        rw [same, TupleReader.tryI64_toInt] at narrowed
        cases narrowed
    | some units =>
        have same := tryI64_eq_some_iff.mp narrowed
        constructor
        · rintro ⟨⟩
          exact ⟨units, rfl, same.symm⟩
        · rintro ⟨other, rfl, sameOther⟩
          rw [Int64.toInt_inj.mp (same.trans sameOther)]
  · -- What does not fit in 128 bits does not fit in 64 either.
    simp only [small, ↓reduceIte]
    refine iff_of_false (by simp) ?_
    rintro ⟨units, _, same⟩
    have above := units.le_toInt
    have below := units.toInt_lt
    rw [← same] at above below
    cases negative <;> simp only [signedNumber, Bool.false_eq_true, if_false,
      if_true] at above below <;> omega

/-- A text is read when its parts are digits, the places past the scale are
zeros and the digits spell a count in range. -/
theorem decimalFromStr_eq_ok_iff
    {text : String} {scale : UInt8} {negative : Bool}
    {whole fraction : List Char}
    (stripped : stripSign (trimText isWhitespace text.toList) = (negative, digits))
    (split : splitPoint digits = (whole, fraction))
    (value : Value) :
    decimalFromStr text scale = .ok value ↔ ¬ (whole = [] ∧ fraction = []) ∧
      (∀ char ∈ whole, char.isDigit = true) ∧
      (∀ char ∈ fraction, char.isDigit = true) ∧
      (∀ char ∈ fraction.drop scale.toNat, char = '0') ∧
      ∃ units : Int64, value = .decimal units ∧ signedNumber negative
          (digitsNumber (DecimalNumeral.unitDigits whole fraction
            scale.toNat)) = units.toInt := by
  rw [decimalFromStr]
  simp only [stripped, split, List.isEmpty_iff, all_eq_true, beq_iff_eq]
  by_cases empty : whole = [] ∧ fraction = []
  · simp [empty]
  rw [if_neg empty]
  have filledDigits :
      (∀ char ∈ (if whole = [] then ['0'] else whole), char.isDigit = true) ↔
        ∀ char ∈ whole, char.isDigit = true := by
    by_cases isNil : whole = []
    · simp [isNil]
    · simp [isNil]
  simp only [filledDigits]
  by_cases all : (∀ char ∈ whole, char.isDigit = true) ∧
      ∀ char ∈ fraction, char.isDigit = true
  swap
  · rw [if_pos all]
    refine iff_of_false (by simp) ?_
    rintro ⟨_, wholeDigits, fractionDigits, _⟩
    exact all ⟨wholeDigits, fractionDigits⟩
  rw [if_neg (not_not.mpr all)]
  by_cases lossless : ∀ char ∈ fraction.drop scale.toNat, char = '0'
  swap
  · rw [if_pos lossless]
    exact iff_of_false (by simp) fun ⟨_, _, _, zeros, _⟩ => lossless zeros
  rw [if_neg (not_not.mpr lossless)]
  have unitDigitsAll : ∀ char ∈ DecimalNumeral.unitDigits
      (if whole = [] then ['0'] else whole) fraction scale.toNat,
      char.isDigit = true := by
    intro char member
    rcases mem_append.mp member with earlier | padding
    · rcases mem_append.mp earlier with isWhole | isPlace
      · exact filledDigits.mpr all.1 char isWhole
      · exact all.2 char (mem_of_mem_take isPlace)
    · rw [(mem_replicate.mp padding).2]
      decide
  have notNil : DecimalNumeral.unitDigits
      (if whole = [] then ['0'] else whole) fraction scale.toNat ≠ [] := by
    by_cases isNil : whole = []
    · simp [isNil, DecimalNumeral.unitDigits]
    · simp [isNil, DecimalNumeral.unitDigits]
  have spelled := unitDigits_filled whole fraction scale.toNat
  simp only [List.isEmpty_iff] at spelled
  rw [← spelled]
  have narrowed := narrowed_eq_ok_iff notNil unitDigitsAll negative
    (.doesNotFit (trimText isWhitespace text.toList)) value
  rw [DecimalNumeral.unitDigits] at narrowed ⊢
  rw [narrowed]
  constructor
  · intro found
    exact ⟨empty, all.1, all.2, lossless, found⟩
  · rintro ⟨_, _, _, _, found⟩
    exact found

namespace DecimalNumeral

/-- A text is read as the units of a scale that it denotes. -/
theorem decimalFromStr_eq_ok_iff_denotes
    (text : String) (scale : UInt8) (value : Value) :
    decimalFromStr text scale = .ok value ↔ ∃ units : Int64, value = .decimal units ∧
        Denotes text (units.toInt / 10 ^ scale.toNat) := by
  rcases stripped : stripSign (trimText isWhitespace text.toList) with
    ⟨negative, digits⟩
  rcases split : splitPoint digits with ⟨whole, fraction⟩
  rw [decimalFromStr_eq_ok_iff stripped split]
  constructor
  · rintro ⟨someDigit, wholeDigits, fractionDigits, zeros, units, isUnits, spelled⟩
    obtain ⟨numeral, isText, rfl, rfl, rfl⟩ := exists_of_parts stripped split
      wholeDigits fractionDigits someDigit
    obtain ⟨before, after, opens, closes, between⟩ :=
      exists_trimText isWhitespace text.toList
    rw [← isText] at between
    exact ⟨units, isUnits, before, after, numeral, opens, closes, between,
      (numeral.value_eq_iff _ _).mpr ⟨zeros, spelled⟩⟩
  · rintro ⟨units, isUnits, before, after, numeral, opens, closes, between, denotes⟩
    have plain : ∀ char ∈ numeral.text, isWhitespace char = false :=
      fun _ => isWhitespace_of_mem_text
    rw [between, trimText_between opens plain closes, trimText_of_plain plain,
      numeral.stripSign_text] at stripped
    cases stripped
    rw [numeral.splitPoint_digits] at split
    cases split
    obtain ⟨zeros, spelled⟩ := (numeral.value_eq_iff _ _).mp denotes
    exact ⟨numeral.someDigit, numeral.wholeDigits, numeral.fractionDigits,
      zeros, units, isUnits, spelled⟩

/-- The sign that is written before a count of units. -/
def signOf (units : Int64) : NumeralSign :=
  if units.toInt < 0 then .minus else .implicit

theorem text_signOf
    (units : Int64) :
    (signOf units).text = if units.toInt < 0 then ['-'] else [] := by
  rw [signOf]
  split <;> rfl

theorem signedNumber_signOf
    (units : Int64) :
    signedNumber (signOf units).negative units.toInt.natAbs =
      units.toInt := by
  by_cases below : units.toInt < 0
  · simp only [signOf, below, ↓reduceIte, NumeralSign.negative, signedNumber]
    omega
  · simp only [signOf, below, ↓reduceIte, NumeralSign.negative, signedNumber,
      Bool.false_eq_true]
    omega

/-- Digits of a count's magnitude denote the count when as many of them as the
scale says stand after the point. -/
theorem value_of_digits
    {units : Int64} {scale : Nat}
    (sign : numeral.sign = signOf units)
    (length : numeral.places.length = scale)
    (spelled : digitsNumber (numeral.whole ++ numeral.places) = units.toInt.natAbs) :
    numeral.value = units.toInt / 10 ^ scale := by
  refine (numeral.value_eq_iff _ _).mpr ⟨?_, ?_⟩
  · simp [← length]
  · have all : unitDigits numeral.whole numeral.places scale =
        numeral.whole ++ numeral.places := by
      simp [unitDigits, ← length]
    rw [all, spelled, sign, signedNumber_signOf]

/-- A count is written as a numeral that denotes it. -/
theorem exists_decimalToString
    (units : Int64) (scale : UInt8) :
    ∃ numeral : DecimalNumeral, (decimalToString units scale).toList = numeral.text ∧
        numeral.value = units.toInt / 10 ^ scale.toNat := by
  have magnitudeDigits : ∀ char ∈ Nat.toDigits 10 units.toInt.natAbs,
      char.isDigit = true :=
    fun _ => isDigit_toDigits
  have spelled : digitsNumber (Nat.toDigits 10 units.toInt.natAbs) =
      units.toInt.natAbs :=
    Nat.ofDigitChars_ten_toDigits
  rw [decimalToString]
  by_cases noPlaces : scale.toNat = 0
  · simp only [noPlaces, ↓reduceIte, i64ToString, ← text_signOf, String.toList_ofList]
    refine ⟨⟨signOf units, Nat.toDigits 10 units.toInt.natAbs, none,
      magnitudeDigits, by simp, by simp⟩, rfl,
      value_of_digits rfl rfl ?_⟩
    simpa [places] using spelled
  · simp only [noPlaces, ↓reduceIte, ← text_signOf, String.toList_ofList]
    generalize isPadded : (if (Nat.toDigits 10 units.toInt.natAbs).length ≤
        scale.toNat then
      replicate (scale.toNat -
        (Nat.toDigits 10 units.toInt.natAbs).length + 1) '0' ++
          Nat.toDigits 10 units.toInt.natAbs
      else Nat.toDigits 10 units.toInt.natAbs) = padded
    obtain ⟨long, paddedDigits, paddedSpelled⟩ : scale.toNat < padded.length ∧
          (∀ char ∈ padded, char.isDigit = true) ∧
          digitsNumber padded = units.toInt.natAbs := by
      rw [← isPadded]
      split
      · refine ⟨?_, ?_, ?_⟩
        · rw [length_append, length_replicate]
          omega
        · intro char member
          rcases mem_append.mp member with isZero | isDigit
          · rw [(mem_replicate.mp isZero).2]
            decide
          · exact magnitudeDigits char isDigit
        · rw [digitsNumber_zeros_append, spelled]
      · next long => exact ⟨by omega, magnitudeDigits, spelled⟩
    have whole_ne : ¬ (padded.take (padded.length - scale.toNat) = [] ∧
        (some (padded.drop (padded.length - scale.toNat))).getD [] = []) := by
      rintro ⟨isNil, _⟩
      rw [take_eq_nil_iff] at isNil
      rcases isNil with noDigits | isNil
      · omega
      · rw [isNil] at long
        simp at long
    refine ⟨⟨signOf units, padded.take (padded.length - scale.toNat), some
      (padded.drop (padded.length - scale.toNat)), fun char member => paddedDigits char
      (mem_of_mem_take member), fun char member => paddedDigits char
      (mem_of_mem_drop member), whole_ne⟩, ?_, value_of_digits rfl ?_ ?_⟩
    · simp [text, digits]
    · simp only [places, Option.getD_some, length_drop]
      omega
    · simpa [places] using paddedSpelled

/-- Reading decimals is exact: a text is read as a count of units of a scale
when it is a numeral for exactly so many of them, and a count that is written is
read back. -/
theorem decimalText_exact :
    (∀ (text : String) (scale : UInt8) (value : Value),
      decimalFromStr text scale = .ok value ↔ ∃ units : Int64, value = .decimal units ∧
          Denotes text (units.toInt / 10 ^ scale.toNat)) ∧
      ∀ (units : Int64) (scale : UInt8),
        decimalFromStr (decimalToString units scale) scale = .ok (.decimal units) := by
  refine ⟨decimalFromStr_eq_ok_iff_denotes, fun units scale => ?_⟩
  obtain ⟨numeral, written, denotes⟩ := exists_decimalToString units scale
  refine (decimalFromStr_eq_ok_iff_denotes _ _ _).mpr ⟨units, rfl, [], [],
    numeral, by simp, by simp, ?_, denotes⟩
  rw [written, nil_append, append_nil]

end DecimalNumeral

end SlateOrm
