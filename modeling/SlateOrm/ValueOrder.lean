import SlateOrm.TupleOrder

namespace SlateOrm

open OrderedCode

/-!
# The order of values is a total order

The bytes of a value cut its vectors, so they cannot show that the order is
transitive on all values.  Words over the integers can: every value has one
that decides its comparison, without a bound on any count.
-/

namespace Value

/-- The word of a list: a one before each element and a zero at the end. -/
def listWord {α : Type} (word : α → List Int) : List α → List Int
  | [] => [0]
  | element :: rest => 1 :: (word element ++ listWord word rest)

theorem listWord_decided
    {α : Type} {word : α → List Int} {order : α → α → Ordering}
    {first second : List α}
    (each : ∀ element ∈ first, ∀ other,
      DecidedBy (word element) (word other) (order element other)) :
    DecidedBy (listWord word first) (listWord word second)
      (List.compareLex order first second) := by
  induction first generalizing second with
  | nil =>
      cases second with
      | nil => exact DecidedBy.refl _
      | cons _ _ => exact DecidedBy.ofTags _ _ rfl (fun same => nomatch same)
  | cons element rest ih =>
      cases second with
      | nil => exact DecidedBy.ofTags _ _ rfl (fun same => nomatch same)
      | cons other others =>
          rw [listWord, listWord, List.compareLex_cons_cons]
          apply DecidedBy.sameTag
          exact DecidedBy.append (each element (List.mem_cons_self ..) other)
            (fun _ => ih (fun value member =>
              each value (List.mem_cons_of_mem _ member)))

/-- The word of a float: whether it is a number, and its place if it is. -/
def floatWord {width : Nat} (isNan : BitVec width → Bool)
    (value : BitVec width) : List Int :=
  if isNan value then [1, 0] else [0, totalKey value]

theorem floatWord_decided
    {width : Nat} (isNan : BitVec width → Bool) (first second : BitVec width) :
    DecidedBy (floatWord isNan first) (floatWord isNan second)
      (floatCmp isNan first second) := by
  unfold floatWord floatCmp
  cases isNan first with
  | true =>
      cases isNan second with
      | true => exact DecidedBy.refl _
      | false => exact DecidedBy.ofTags _ _ rfl (fun same => nomatch same)
  | false =>
      cases isNan second with
      | true => exact DecidedBy.ofTags _ _ rfl (fun same => nomatch same)
      | false => exact DecidedBy.sameTag _ (DecidedBy.symbol _ _)

theorem compare_natCast
    (first second : Nat) :
    compare (first : Int) (second : Int) = compare first second := by
  simp only [compare, compareOfLessAndEq, Int.ofNat_lt, Int.ofNat_inj]

/-- The word of a byte string. -/
def bytesWord (bytes : Bytes) : List Int :=
  listWord (fun byte => [(byte.toNat : Int)]) bytes

theorem bytesWord_decided
    (first second : Bytes) :
    DecidedBy (bytesWord first) (bytesWord second) (compare first second) := by
  refine listWord_decided (fun byte _ other => ?_)
  rw [compare_byte, ← compare_natCast]
  exact DecidedBy.symbol _ _

mutual

/-- The word of a value: its class, and what it is within it. -/
def word : Value → List Int
  | null => [0]
  | bool value => [1, value.toNat]
  | bytes value => 2 :: bytesWord value
  | str text => 3 :: bytesWord (utf8 text)
  | i64 value => [4, value.toInt]
  | u64 value => [4, value.toNat]
  | decimal units => [5, units.toInt]
  | f64 value => 6 :: floatWord F64.isNan value
  | uuid value => 7 :: bytesWord value.bytes
  | vector elements => 8 :: (elements.length :: listWord (floatWord F32.isNan) elements)
  | array elements => 9 :: words elements

def words : List Value → List Int
  | [] => [0]
  | element :: rest => 1 :: (word element ++ words rest)

end

theorem word_lead
    (value : Value) :
    ∃ rest, word value = (value.classRank : Int) :: rest := by
  cases value <;> exact ⟨_, rfl⟩

theorem word_decided_of_classRank_ne
    {first second : Value}
    (different : first.classRank ≠ second.classRank) :
    DecidedBy (word first) (word second) (cmp first second) := by
  obtain ⟨rest, isWord⟩ := word_lead first
  obtain ⟨rest', isWord'⟩ := word_lead second
  rw [isWord, isWord', cmp_of_classRank_ne different]
  refine DecidedBy.ofTags _ _ (compare_natCast _ _) ?_
  simpa using different

/-- Values of one class other than arrays are decided by their payloads. -/
theorem word_decided_of_classRank_eq
    {first second : Value}
    (notArray : ∀ elements, first ≠ .array elements)
    (sameClass : first.classRank = second.classRank) :
    DecidedBy (word first) (word second) (cmp first second) := by
  cases ofOneClass notArray sameClass with
  | null => exact DecidedBy.refl _
  | bool first second =>
      cases first <;> cases second <;>
        exact DecidedBy.sameTag _ (DecidedBy.symbol _ _)
  | bytes first second => exact DecidedBy.sameTag _ (bytesWord_decided first second)
  | str first second =>
      exact DecidedBy.sameTag _ (bytesWord_decided (utf8 first) (utf8 second))
  | whole widened widened' =>
      have isWhole {value : Value} {number : Int}
          (widened : value.asI128 = some number) :
          word value = [4, number] := by
        cases value <;> cases widened <;> rfl
      rw [isWhole widened, isWhole widened', cmp_of_asI128 widened widened']
      exact DecidedBy.sameTag _ (DecidedBy.symbol _ _)
  | decimal first second => exact DecidedBy.sameTag _ (DecidedBy.symbol _ _)
  | f64 first second => exact DecidedBy.sameTag _ (floatWord_decided _ first second)
  | uuid first second =>
      exact DecidedBy.sameTag _ (bytesWord_decided first.bytes second.bytes)
  | vector first second =>
      have lengths := DecidedBy.symbol (first.length : Int) (second.length : Int)
      rw [compare_natCast] at lengths
      exact DecidedBy.sameTag _ (DecidedBy.append lengths (fun _ => listWord_decided
          (fun element _ => floatWord_decided F32.isNan element)))

theorem words_eq_listWord
    (elements : List Value) :
    words elements = listWord word elements := by
  induction elements with
  | nil => rfl
  | cons element rest ih => rw [words, listWord, ih]

theorem cmpList_eq_compareLex
    (first second : List Value) :
    cmpList first second = List.compareLex cmp first second := by
  induction first generalizing second with
  | nil => cases second <;> rfl
  | cons element rest ih =>
      cases second with
      | nil => rfl
      | cons other others => rw [cmpList, List.compareLex_cons_cons, ih]

theorem word_decided
    (first second : Value) :
    DecidedBy (word first) (word second) (cmp first second) := by
  induction first using Value.induction generalizing second with
  | scalar first notArray =>
      by_cases sameClass : first.classRank = second.classRank
      · exact word_decided_of_classRank_eq notArray sameClass
      · exact word_decided_of_classRank_ne sameClass
  | ofArray elements ih =>
      by_cases sameClass : (array elements).classRank = second.classRank
      · cases second with
        | array others =>
            rw [cmp_array, cmpList_eq_compareLex, word, word,
              words_eq_listWord, words_eq_listWord]
            exact DecidedBy.sameTag _ (listWord_decided ih)
        | _ => simp [classRank] at sameClass
      · exact word_decided_of_classRank_ne sameClass

theorem cmp_eq_compare_word
    (first second : Value) :
    cmp first second = compare (word first) (word second) :=
  (word_decided first second).compare_eq.symm

/-- Values are ordered as their words are. -/
instance : Std.TransCmp cmp where
  eq_swap {first second} := by
    rw [cmp_eq_compare_word, cmp_eq_compare_word second]
    exact Std.OrientedOrd.eq_swap
  isLE_trans {first second third} isLE isLE' := by
    rw [cmp_eq_compare_word] at isLE isLE' ⊢
    exact Std.TransOrd.isLE_trans isLE isLE'

end Value

end SlateOrm
