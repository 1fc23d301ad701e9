import Mathlib.Data.List.Basic

namespace SlateOrm.OrderedCode

open List

/-!
# Order-preserving self-delimiting codes

A code word decides a comparison when the order of two strings that start with
two code words is the order of the values they encode, and only equal values
hand the comparison on to what follows.  One property then carries all three
facts an ordered key format needs: words compare as their values do, equal
words are equal values, and no word is a proper prefix of another.

The alphabet is arbitrary.  The rules below are the ways in which formats are
put together: single symbols, concatenation, distinguishing tags, and the
reversal of every symbol.
-/

variable {Symbol : Type} [Ord Symbol]

/--
Two code words are ordered as `order` says, whatever follows them, and hand the
comparison on to their continuations exactly when `order` is equality.
-/
def DecidedBy (first second : List Symbol) (order : Ordering) : Prop :=
  ∀ afterFirst afterSecond, compare (first ++ afterFirst) (second ++ afterSecond) =
      order.then (compare afterFirst afterSecond)

/-- A map of symbols that turns their order around. -/
def Reverses (complement : Symbol → Symbol) : Prop := ∀ first second,
    compare (complement first) (complement second) = (compare first second).swap

namespace DecidedBy

theorem nil :
    DecidedBy ([] : List Symbol) [] .eq := by
  intro afterFirst afterSecond
  simp

theorem symbol
    (first second : Symbol) :
    DecidedBy [first] [second] (compare first second) := by
  intro afterFirst afterSecond
  simp [List.compare_cons_cons]

theorem append
    {first second first' second' : List Symbol} {order order' : Ordering}
    (leading : DecidedBy first second order)
    (trailing : order = .eq → DecidedBy first' second' order') :
    DecidedBy (first ++ first') (second ++ second') (order.then order') := by
  intro afterFirst afterSecond
  rw [append_assoc, append_assoc, leading]
  cases order with
  | lt
  | gt => rfl
  | eq => exact trailing rfl afterFirst afterSecond

theorem cons
    (first second : Symbol) {first' second' : List Symbol} {order : Ordering}
    (trailing : compare first second = .eq → DecidedBy first' second' order) :
    DecidedBy (first :: first') (second :: second')
      ((compare first second).then order) :=
  append (symbol first second) trailing

theorem ofTags
    {first second : Symbol} {order : Ordering} (first' second' : List Symbol)
    (tags : compare first second = order)
    (distinct : order ≠ .eq) :
    DecidedBy (first :: first') (second :: second') order := by
  intro afterFirst afterSecond
  rw [cons_append, cons_append, List.compare_cons_cons, tags]
  cases order with
  | lt
  | gt => rfl
  | eq => exact absurd rfl distinct

section Reflexive

variable [Std.ReflOrd Symbol]

theorem refl
    (word : List Symbol) :
    DecidedBy word word .eq := by
  induction word with
  | nil => exact nil
  | cons first rest ih =>
      have decided := cons first first (fun _ => ih)
      rwa [Std.ReflOrd.compare_self] at decided

variable {first second : List Symbol} {order : Ordering}

theorem sameTag
    (tag : Symbol) (rest : DecidedBy first second order) :
    DecidedBy (tag :: first) (tag :: second) order :=
  append (refl [tag]) (fun _ => rest)

theorem compare_eq
    (decided : DecidedBy first second order) :
    compare first second = order := by
  have words := decided [] []
  rwa [append_nil, append_nil, Std.ReflOrd.compare_self, Ordering.then_eq] at words

theorem eq_of_prefix
    (decided : DecidedBy first second order)
    (begins : first <+: second) :
    order = .eq := by
  obtain ⟨rest, rfl⟩ := begins
  have words := decided rest []
  rw [append_nil, Std.ReflOrd.compare_self] at words
  exact (Ordering.then_eq_eq.mp words.symm).1

/--
Reversing every symbol reverses the order of decided words.  The claim needs
the words to be decided: of two words one of which begins the other, the
shorter sorts first in both directions.
-/
theorem reversed
    {complement : Symbol → Symbol} (reverses : Reverses complement)
    (decided : DecidedBy first second order) :
    DecidedBy (first.map complement) (second.map complement)
      order.swap := by
  induction first generalizing second with
  | nil =>
      have equal := decided.eq_of_prefix nil_prefix
      subst equal
      cases second with
      | nil => exact nil
      | cons head rest =>
          have words := decided.compare_eq
          simp at words
  | cons head rest ih =>
      cases second with
      | nil =>
          have words := decided [] (head :: rest)
          rw [append_nil, nil_append, Std.ReflOrd.compare_self] at words
          have equal := (Ordering.then_eq_eq.mp words.symm).1
          subst equal
          have shorter := decided.compare_eq
          simp at shorter
      | cons head' rest' =>
          have heads := reverses head head'
          cases tags : compare head head' with
          | eq =>
              have tails : DecidedBy rest rest' order := by
                intro afterFirst afterSecond
                have words := decided afterFirst afterSecond
                rwa [cons_append, cons_append,
                  List.compare_cons_cons, tags, Ordering.eq_then] at words
              have decidedTails := cons (complement head) (complement head')
                (fun _ => ih tails)
              rwa [heads, tags, Ordering.swap_eq, Ordering.eq_then] at decidedTails
          | lt =>
              have words := decided.compare_eq
              rw [List.compare_cons_cons, tags, Ordering.lt_then] at words
              subst words
              rw [tags] at heads
              exact ofTags _ _ heads (by decide)
          | gt =>
              have words := decided.compare_eq
              rw [List.compare_cons_cons, tags, Ordering.gt_then] at words
              subst words
              rw [tags] at heads
              exact ofTags _ _ heads (by decide)

end Reflexive

end DecidedBy

end SlateOrm.OrderedCode
