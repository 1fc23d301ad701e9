import Mathlib.Algebra.Order.BigOperators.Group.List
import SlateOrm.Fingerprint
import SlateOrm.FloatArith

namespace SlateOrm

open List

/-!
# Counting terms

A bounded number of counters follows a stream of terms.  A term that arrives
when all are taken takes over the smallest and inherits its count as an error.
The counts add up to the length of the stream, and what a term that is not
counted was counted before is at most the smallest of them.
-/

/-- Counters are ordered by count, and those of one count by slot. -/
instance termPairOrd : Ord (Nat × Nat) := lexOrd

/-- How many hashes the sketch of a vocabulary keeps. -/
def VOCABULARY_SKETCH : Nat := 1024

/-- `x.min(y)`. -/
def F64.min (first second : F64) : F64 :=
  if isNan first || !isNan second && signedUnits second < signedUnits first then
    second
  else
    first

/-- `x.max(y)`. -/
def F64.max (first second : F64) : F64 :=
  if isNan first || !isNan second && signedUnits first < signedUnits second then
    second
  else
    first

/-- A term's place among the hashes of a vocabulary. -/
def termHash (term : String) : UInt64 :=
  let hash := Fingerprint.bytes Fingerprint.FNV_OFFSET (utf8 term)
  let hash := (hash ^^^ (hash >>> 30)) * 0xbf58476d1ce4e5b9
  let hash := (hash ^^^ (hash >>> 27)) * 0x94d049bb133111eb
  hash ^^^ (hash >>> 31)

/-- How many rows are expected to hold each term. -/
structure TermStats where
  counts : Std.ExtTreeMap String F64 compare
  untracked : F64

/-- Counts that are known to be complete. -/
def TermStats.exact (counts : List (String × Nat)) : TermStats where
  counts := .ofList (counts.map (fun counted =>
    (counted.1, F64.ofInt counted.2))) compare
  untracked := F64.positiveZero

/-- How many rows are expected to hold a term. -/
def TermStats.documents (stats : TermStats) (term : String) : F64 :=
  stats.counts[term]?.getD stats.untracked

/-- A term, its count and the error that it inherited. -/
structure CountedTerm where
  term : String
  count : Nat
  error : Nat

/-- A term that was counted has occurred as often as its count says, less what
it inherited at most. -/
structure CountedTerm.Bounds (counted : CountedTerm) (occurrences : Nat) :
    Prop where
  inherited : counted.error ≤ counted.count
  lower : counted.count - counted.error ≤ occurrences
  upper : occurrences ≤ counted.count

structure TermCounter where
  capacity : Nat
  terms : List CountedTerm
  slot : Std.ExtTreeMap String Nat compare
  byCount : Std.ExtTreeSet (Nat × Nat) compare
  evicted : Bool
  sketch : Std.ExtTreeSet UInt64 compare

namespace TermCounter

/-- A counter of at most so many terms, though never of none. -/
def new (capacity : Nat) : TermCounter where
  capacity := max capacity 1
  terms := []
  slot := ∅
  byCount := ∅
  evicted := false
  sketch := ∅

/-- The smallest hashes seen, once one more is. -/
def sketched (sketch : Std.ExtTreeSet UInt64 compare) (hash : UInt64) :
    Std.ExtTreeSet UInt64 compare :=
  if sketch.size < VOCABULARY_SKETCH then
    sketch.insert hash
  else if sketch.max?.any (fun largest => hash < largest) &&
      !sketch.contains hash then
    let kept := sketch.insert hash
    kept.max?.elim kept kept.erase
  else
    sketch

/-- Put a counter in place of the one that a slot has. -/
def recount (counter : TermCounter) (place : Nat)
    (old counted : CountedTerm) : TermCounter :=
  { counter with
    terms := counter.terms.set place counted
    byCount := (counter.byCount.erase (old.count, place)).insert
      (counted.count, place) }

/-- Put a counter of a term after the others. -/
def push (counter : TermCounter) (term : String) : TermCounter :=
  let place := counter.terms.length
  { counter with
    terms := counter.terms ++ [⟨term, 1, 0⟩]
    slot := counter.slot.insert term place
    byCount := counter.byCount.insert (1, place) }

/-- Count a term that has no counter. -/
def countNew (counter : TermCounter) (term : String) : TermCounter :=
  if counter.terms.length < counter.capacity then
    counter.push term
  else
    match counter.byCount.min? with
    | none => counter
    | some (smallest, place) =>
        match counter.terms[place]? with
        | none => { counter with byCount := counter.byCount.erase (smallest, place) }
        | some old =>
            { counter.recount place { old with count := smallest }
                ⟨term, smallest + 1, smallest⟩ with
              evicted := true
              slot := (counter.slot.erase old.term).insert term place }

/-- One row holds a term. -/
def add (counter : TermCounter) (term : String) : TermCounter :=
  let counter := { counter with sketch := sketched counter.sketch (termHash term) }
  match counter.slot[term]? with
  | none => counter.countNew term
  | some place =>
      match counter.terms[place]? with
      | none => counter.countNew term
      | some old => counter.recount place old { old with count := old.count + 1 }

/-- The counter of at most so many terms once it was given a stream. -/
def counting (capacity : Nat) (stream : List String) : TermCounter :=
  stream.foldl add (new capacity)

/-- How many distinct terms were seen. -/
def vocabulary (counter : TermCounter) : F64 :=
  if counter.sketch.size < VOCABULARY_SKETCH then
    F64.ofInt counter.sketch.size
  else
    let largest := max (counter.sketch.max?.getD (-1)).toNat 1
    F64.div (F64.ofInt (VOCABULARY_SKETCH - 1 : Nat))
      (F64.div (F64.ofInt largest) (F64.ofInt (2 ^ 64 - 1)))

/-- The statistics once all terms are counted. -/
def finish (counter : TermCounter) : TermStats := if !counter.evicted then
    .exact (counter.terms.map (fun counted => (counted.term, counted.count)))
  else
    let smallest := F64.ofInt (counter.byCount.min?.elim 0 Prod.fst : Nat)
    let evicted := (counter.terms.map CountedTerm.error).sum
    let exact := counter.terms.countP (fun counted => counted.error = 0)
    let sharing := F64.max (F64.sub counter.vocabulary (F64.ofInt exact)) F64.one
    let untracked := F64.min (F64.div (F64.ofInt evicted) sharing) smallest
    { counts := .ofList (counter.terms.map (fun counted =>
        let since := F64.ofInt (counted.count - counted.error : Nat)
        (counted.term,
          if 0 < counted.error then F64.add since untracked else since)))
        compare
      untracked := untracked }

/-! ## One term more -/

/-- The three parts of a counter agree on what is in each slot. -/
structure Consistent (counter : TermCounter) : Prop where
  slot : ∀ term place, counter.slot[term]? = some place ↔
    counter.terms[place]?.map CountedTerm.term = some term
  byCount : ∀ count place, (count, place) ∈ counter.byCount ↔
    counter.terms[place]?.map CountedTerm.count = some count

/-- What a counter says about the terms that it was given. -/
structure Counts (counter : TermCounter) (capacity : Nat)
    (stream : List String) : Prop where
  consistent : counter.Consistent
  capacity : counter.capacity = max capacity 1
  few : counter.terms.length ≤ counter.capacity
  sum : (counter.terms.map CountedTerm.count).sum = stream.length
  bounds : ∀ (place : Nat) (counted : CountedTerm),
    counter.terms[place]? = some counted → counted.Bounds (stream.count counted.term)
  untracked : ∀ term, counter.slot[term]? = none →
    ∀ counted ∈ counter.terms, stream.count term ≤ counted.count
  full : counter.evicted = true → counter.terms.length = counter.capacity
  exact : counter.evicted = false → (∀ counted ∈ counter.terms, counted.error =
    0) ∧ ∀ term, counter.slot[term]? = none → stream.count term = 0

variable {counter : TermCounter} {capacity : Nat} {stream : List String}
  {term : String}

theorem Consistent.slot_of_found
    (consistent : counter.Consistent)
    {place : Nat} {counted : CountedTerm}
    (found : counter.terms[place]? = some counted) :
    counter.slot[counted.term]? = some place :=
  (consistent.slot _ _).mpr (by rw [found]; rfl)

/-- What is first in the order is in a slot, and nothing is counted less. -/
theorem Consistent.least
    (consistent : counter.Consistent)
    {smallest place : Nat}
    (isFirst : counter.byCount.min? = some (smallest, place)) :
    (∃ old, counter.terms[place]? = some old ∧ old.count = smallest) ∧
      ∀ counted ∈ counter.terms, smallest ≤ counted.count := by
  obtain ⟨member, least⟩ := Std.ExtTreeSet.min?_eq_some_iff_mem_and_forall.mp isFirst
  refine ⟨Option.map_eq_some_iff.mp
    ((consistent.byCount smallest place).mp member), fun counted isIn => ?_⟩
  obtain ⟨other, found⟩ := mem_iff_getElem?.mp isIn
  have inOrder := least (counted.count, other)
    ((consistent.byCount _ _).mpr (by rw [found]; rfl))
  by_contra less
  have greater : compare smallest counted.count = .gt :=
    Nat.compare_eq_gt.mpr (Nat.not_le.mp less)
  have first : compare (smallest, place) (counted.count, other) = .gt := by
    change (compare smallest counted.count).then (compare place other) = .gt
    rw [greater]
    rfl
  rw [first] at inOrder
  cases inOrder

/-- Of counters there is a first in the order. -/
theorem Consistent.exists_first
    (consistent : counter.Consistent)
    (isFilled : 0 < counter.terms.length) :
    ∃ smallest place, counter.byCount.min? = some (smallest, place) := by
  have member := (consistent.byCount _ 0).mpr
    (by rw [getElem?_eq_getElem isFilled]; rfl)
  obtain ⟨first, isFirst⟩ := Option.isSome_iff_exists.mp
    (Std.ExtTreeSet.isSome_min?_of_mem member)
  exact ⟨first.1, first.2, isFirst⟩

theorem sum_set
    {values : List Nat} {place value : Nat}
    (found : values[place]? = some value) :
    (values.set place (value + 1)).sum = values.sum + 1 := by
  induction values generalizing place with
  | nil => cases found
  | cons first rest ih =>
      cases place with
      | zero =>
          cases found
          simp only [set_cons_zero, sum_cons]
          omega
      | succ place =>
          rw [set_cons_succ, sum_cons, sum_cons, ih found, Nat.add_assoc]

/-- A slot goes to a term that is counted once more than what it had. -/
structure Assigns (counter next : TermCounter) (place : Nat)
    (counted : CountedTerm) : Prop where
  terms : ∀ other, next.terms[other]? =
    if other = place then some counted else counter.terms[other]?
  slot : ∀ query, next.slot[query]? =
    if query = counted.term then some place
    else if counter.slot[query]? = some place then none
    else counter.slot[query]?
  byCount : ∀ count other, (count, other) ∈ next.byCount ↔
    if other = place then count = counted.count
    else (count, other) ∈ counter.byCount
  sum : (next.terms.map CountedTerm.count).sum =
    (counter.terms.map CountedTerm.count).sum + 1
  capacity : next.capacity = counter.capacity
  alone : ∀ other, counter.slot[counted.term]? = some other → other = place

section

variable {next : TermCounter} {place : Nat} {counted : CountedTerm}

theorem Assigns.consistent
    (assigns : counter.Assigns next place counted)
    (consistent : counter.Consistent) :
    next.Consistent := by
  constructor
  · intro query other
    have before := consistent.slot query other
    have alone := assigns.alone other
    rw [assigns.slot, assigns.terms]
    by_cases same : other = place
    · subst same
      rw [if_pos rfl]
      grind
    · rw [if_neg same]
      grind
  · intro count other
    rw [assigns.byCount, assigns.terms]
    split
    · simp [eq_comm]
    · exact consistent.byCount count other

theorem Counts.assign
    (counts : counter.Counts capacity stream)
    (assigns : counter.Assigns next place counted)
    (bounds : counted.Bounds (stream.count counted.term + 1))
    (few : next.terms.length ≤ counter.capacity)
    (lost : ∀ query, counter.slot[query]? = none ∨
      query ≠ counted.term ∧ counter.slot[query]? = some place →
        ∀ other ∈ next.terms, stream.count query ≤ other.count)
    (full : next.evicted = true → next.terms.length = counter.capacity)
    (exact : next.evicted = false → counter.evicted = false ∧ counted.error = 0 ∧
        ∀ query, counter.slot[query]? = some place → query = counted.term) :
    next.Counts capacity (stream ++ [counted.term]) := by
  have once : ∀ query, query ≠ counted.term →
      (stream ++ [counted.term]).count query = stream.count query := by
    intro query other
    simp [Ne.symm other]
  have slots := assigns.slot
  exact {
    consistent := assigns.consistent counts.consistent
    capacity := assigns.capacity.trans counts.capacity
    few := assigns.capacity ▸ few
    sum := by
      rw [assigns.sum, counts.sum, length_append]
      rfl
    bounds := by
      intro other changed isChanged
      rw [assigns.terms] at isChanged
      split at isChanged
      · cases isChanged
        rwa [count_append, count_singleton_self]
      · next elsewhere =>
          rw [once]
          · exact counts.bounds other changed isChanged
          · intro named
            exact elsewhere (assigns.alone other
              (named ▸ counts.consistent.slot_of_found isChanged))
    untracked := by
      intro query isNone changed member
      rw [slots] at isNone
      split at isNone
      · cases isNone
      · next isOther =>
          rw [once query isOther]
          split at isNone
          · next isPlace => exact lost query (.inr ⟨isOther, isPlace⟩) changed member
          · exact lost query (.inl isNone) changed member
    full := assigns.capacity ▸ full
    exact := by
      intro quiet
      obtain ⟨quiet, noError, alone⟩ := exact quiet
      refine ⟨fun changed member => ?_, fun query isNone => ?_⟩
      · obtain ⟨other, found⟩ := mem_iff_getElem?.mp member
        rw [assigns.terms] at found
        split at found
        · cases found
          exact noError
        · exact (counts.exact quiet).1 changed (mem_of_getElem? found)
      · rw [slots] at isNone
        split at isNone
        · cases isNone
        · next isOther =>
            rw [once query isOther]
            rw [if_neg (fun isPlace => isOther (alone query isPlace))] at isNone
            exact (counts.exact quiet).2 query isNone }

end

/-- A term that is new and finds room is counted exactly. -/
theorem Counts.push
    (counts : counter.Counts capacity stream)
    (isNew : counter.slot[term]? = none)
    (room : counter.terms.length < counter.capacity) :
    (counter.push term).Counts capacity (stream ++ [term]) := by
  have quiet : counter.evicted = false := by
    refine Bool.eq_false_iff.mpr (fun evicted => ?_)
    exact room.ne (counts.full evicted)
  obtain ⟨-, unseen⟩ := counts.exact quiet
  -- Nothing is in the slot that follows the last.
  have beyond : counter.terms[counter.terms.length]? = none := getElem?_eq_none le_rfl
  have free : ∀ query : String, ¬ counter.slot[query]? = some counter.terms.length := by
    intro query isPlace
    rw [counts.consistent.slot, beyond] at isPlace
    cases isPlace
  have assigns : counter.Assigns (counter.push term) counter.terms.length
      ⟨term, 1, 0⟩ := {
    terms := by
      intro other
      rw [TermCounter.push, getElem?_append]
      grind
    slot := by
      intro query
      rw [TermCounter.push, if_neg (free query), Std.ExtTreeMap.getElem?_insert]
      simp only [Std.compare_eq_iff_eq, @eq_comm _ query]
    byCount := by
      intro count other
      rw [TermCounter.push, Std.ExtTreeSet.mem_insert, Std.compare_eq_iff_eq,
        Prod.mk.injEq]
      split
      · next isLast => simp [isLast, counts.consistent.byCount, eq_comm]
      · next isOther => simp [Ne.symm isOther]
    sum := by
      simp [TermCounter.push]
    capacity := rfl
    alone := by
      intro other isOther
      rw [isNew] at isOther
      cases isOther }
  refine counts.assign assigns ?_ ?_ ?_ ?_ ?_
  · constructor <;> simp [unseen term isNew]
  · rw [TermCounter.push, length_append]
    exact room
  · rintro query (isNone | ⟨-, isPlace⟩) other -
    · rw [unseen query isNone]
      exact Nat.zero_le _
    · exact absurd isPlace (free query)
  · exact fun evicted => absurd evicted (Bool.eq_false_iff.mp quiet)
  · exact fun _ => ⟨quiet, rfl, fun query isPlace => absurd isPlace (free query)⟩

/-- A slot whose term is counted, or is the least of all, counts a term. -/
theorem Counts.recount
    (counts : counter.Counts capacity stream) {place : Nat}
    {old counted : CountedTerm}
    (found : counter.terms[place]? = some old)
    (increased : counted.count = old.count + 1)
    {next : TermCounter}
    (isNext : next.terms = counter.terms.set place counted ∧
      next.byCount = (counter.byCount.erase (old.count, place)).insert
        (counted.count, place) ∧ next.capacity = counter.capacity)
    (slot : ∀ query, next.slot[query]? =
      if query = counted.term then some place
      else if query = old.term then none
      else counter.slot[query]?)
    (bounds : counted.Bounds (stream.count counted.term + 1))
    (fresh : old.term = counted.term ∨ counter.slot[counted.term]? = none ∧
      ∀ other ∈ counter.terms, old.count ≤ other.count)
    (full : next.evicted = true → counter.terms.length = counter.capacity)
    (exact : next.evicted = false → counter.evicted = false ∧
      old.term = counted.term ∧ counted.error = old.error) :
    next.Counts capacity (stream ++ [counted.term]) := by
  obtain ⟨terms, byCount, capacity⟩ := isNext
  obtain ⟨inside, -⟩ := List.getElem?_eq_some_iff.mp found
  have member := mem_of_getElem? found
  have isPlace : ∀ query, counter.slot[query]? = some place ↔ query = old.term := by
    intro query
    rw [counts.consistent.slot, found, Option.map_some, Option.some.injEq, eq_comm]
  have assigns : counter.Assigns next place counted := {
    terms := by
      intro other
      rw [terms, getElem?_set]
      grind
    slot := by
      intro query
      rw [slot]
      simp only [isPlace]
    byCount := by
      intro count other
      rw [byCount, Std.ExtTreeSet.mem_insert, Std.ExtTreeSet.mem_erase,
        Std.compare_eq_iff_eq, ne_eq, Std.compare_eq_iff_eq, counts.consistent.byCount]
      grind
    sum := by
      rw [terms, map_set, increased, sum_set (by rw [getElem?_map, found]; rfl)]
    capacity := capacity
    alone := by
      intro other isOther
      rcases fresh with same | ⟨isNew, -⟩
      · rw [(isPlace _).mpr same.symm] at isOther
        exact (Option.some.inj isOther).symm
      · rw [isNew] at isOther
        cases isOther }
  refine counts.assign assigns bounds ?_ (fun query isLost other isOther => ?_)
    ?_ (fun quiet => ?_)
  · rw [terms, length_set]
    exact counts.few
  · have least : stream.count query ≤ old.count ∧
        ∀ other ∈ counter.terms, stream.count query ≤ other.count := by
      rcases isLost with isNone | ⟨isOther, isOld⟩
      · exact ⟨counts.untracked query isNone old member, counts.untracked query isNone⟩
      · obtain rfl := (isPlace query).mp isOld
        have upper := (counts.bounds place old found).upper
        rcases fresh with same | ⟨-, least⟩
        · exact absurd same isOther
        · exact ⟨upper, fun other isIn => upper.trans (least other isIn)⟩
    rw [terms] at isOther
    rcases mem_or_eq_of_mem_set isOther with isOther | rfl
    · exact least.2 other isOther
    · rw [increased]
      exact Nat.le_succ_of_le least.1
  · rwa [terms, length_set]
  · obtain ⟨quiet, same, inherited⟩ := exact quiet
    refine ⟨quiet, inherited.trans ((counts.exact quiet).1 old member), ?_⟩
    rw [← same]
    exact fun query => (isPlace query).mp

/-- A term that has no counter is given one. -/
theorem Counts.countNew
    (counts : counter.Counts capacity stream)
    (isNew : counter.slot[term]? = none) :
    (counter.countNew term).Counts capacity (stream ++ [term]) := by
  rw [TermCounter.countNew]
  split
  · next room => exact counts.push isNew room
  · next noRoom =>
      have isFull := Nat.le_antisymm counts.few (Nat.not_lt.mp noRoom)
      have isFilled : 0 < counter.terms.length := by
        rw [isFull, counts.capacity]
        exact Nat.le_max_right ..
      obtain ⟨smallest, place, isFirst⟩ := counts.consistent.exists_first isFilled
      obtain ⟨⟨old, found, rfl⟩, least⟩ := counts.consistent.least isFirst
      have below := counts.untracked term isNew old (mem_of_getElem? found)
      simp only [isFirst, found]
      refine @Counts.recount _ _ _ counts place old
        ⟨term, old.count + 1, old.count⟩ found rfl _ ⟨rfl, rfl, rfl⟩
        (fun query => ?_) ?_ (.inr ⟨isNew, least⟩) (fun _ => isFull)
        (by rintro ⟨⟩)
      · change ((counter.slot.erase old.term).insert term place)[query]? = _
        rw [Std.ExtTreeMap.getElem?_insert, Std.ExtTreeMap.getElem?_erase]
        simp only [Std.compare_eq_iff_eq, @eq_comm _ query]
      · constructor <;> dsimp only <;> omega

/-- A counter says the same of one term more. -/
theorem Counts.add
    (counts : counter.Counts capacity stream) (term : String) :
    (counter.add term).Counts capacity (stream ++ [term]) := by
  have seen : Counts { counter with
      sketch := sketched counter.sketch (termHash term) } capacity stream :=
    { counts with
      consistent := ⟨counts.consistent.slot, counts.consistent.byCount⟩ }
  rw [TermCounter.add]
  dsimp only
  split
  · next isNew => exact seen.countNew isNew
  · next place isHeld =>
      obtain ⟨old, found, rfl⟩ := Option.map_eq_some_iff.mp
        ((counts.consistent.slot _ place).mp isHeld)
      have bounds := counts.bounds place old found
      simp only [found]
      refine @Counts.recount _ _ _ seen place old
        { old with count := old.count + 1 } found rfl _ ⟨rfl, rfl, rfl⟩
        (fun query => ?_) ?_ (.inl rfl) counts.full
        (fun quiet => ⟨quiet, rfl, rfl⟩)
      · split
        · next isTerm =>
            rw [isTerm]
            exact isHeld
        · rfl
      · obtain ⟨inherited, lower, upper⟩ := bounds
        constructor <;> dsimp only <;> omega

/-- A counter says this of any stream that it was given. -/
theorem counts_counting
    (capacity : Nat) (stream : List String) :
    (counting capacity stream).Counts capacity stream := by
  induction stream using reverseRecOn with
  | nil =>
      constructor <;> simp [counting, new]
      · constructor <;> simp
  | append_singleton stream term ih =>
      rw [counting, foldl_append]
      exact ih.add term

/-- The smallest count is at most an equal share of a stream. -/
theorem Counts.smallest_le
    (counts : counter.Counts capacity stream)
    (evicted : counter.evicted = true) :
    ∃ smallest place, counter.byCount.min? = some (smallest, place) ∧
      smallest ≤ stream.length / max capacity 1 := by
  have isFull := (counts.full evicted).trans counts.capacity
  obtain ⟨smallest, place, isFirst⟩ := counts.consistent.exists_first
    (isFull ▸ Nat.le_max_right ..)
  refine ⟨smallest, place, isFirst, ?_⟩
  rw [Nat.le_div_iff_mul_le (Nat.le_max_right ..), Nat.mul_comm, ← isFull, ← counts.sum]
  have share := card_nsmul_le_sum
    (counter.terms.map CountedTerm.count) smallest (fun count member => ?_)
  · rwa [length_map] at share
  · obtain ⟨counted, isCounted, rfl⟩ := mem_map.mp member
    exact (counts.consistent.least isFirst).2 counted isCounted

/-- While nothing is evicted a term is expected in as many rows as it was in. -/
theorem Counts.documents_finish
    (counts : counter.Counts capacity stream)
    (quiet : counter.evicted = false)
    (term : String) :
    counter.finish.documents term = F64.ofInt (stream.count term) := by
  obtain ⟨noError, unseen⟩ := counts.exact quiet
  have slotOf {place counted} := @counts.consistent.slot_of_found _ place counted
  rw [finish, quiet]
  simp only [Bool.not_false, if_true, TermStats.exact, TermStats.documents,
    map_map, Function.comp_def]
  cases isSlot : counter.slot[term]? with
  | some place =>
      obtain ⟨counted, found, rfl⟩ := Option.map_eq_some_iff.mp
        ((counts.consistent.slot _ place).mp isSlot)
      have member := mem_of_getElem? found
      have bounds := counts.bounds place counted found
      have lower := bounds.lower
      rw [noError counted member] at lower
      have distinct : counter.terms.Pairwise (fun first second =>
          ¬ compare first.term second.term = .eq) := by
        rw [pairwise_iff_getElem]
        intro first second inside inside' less same
        have isFirst := slotOf (getElem?_eq_getElem inside)
        have isSecond := slotOf (getElem?_eq_getElem inside')
        rw [Std.compare_eq_iff_eq.mp same] at isFirst
        exact less.ne (Option.some.inj (isFirst.symm.trans isSecond))
      have listed : (counted.term, F64.ofInt counted.count) ∈
          counter.terms.map (fun counted => (counted.term, F64.ofInt counted.count)) :=
        mem_map_of_mem member
      rw [Std.ExtTreeMap.getElem?_ofList_of_mem Std.compare_self
        (pairwise_map.mpr distinct) listed, ← Nat.le_antisymm lower bounds.upper]
      rfl
  | none =>
      rw [Std.ExtTreeMap.getElem?_ofList_of_contains_eq_false, unseen term isSlot]
      · rfl
      · rw [map_map]
        simp only [contains_eq_mem, decide_eq_false_iff_not, mem_map]
        rintro ⟨counted, member, rfl⟩
        obtain ⟨place, found⟩ := mem_iff_getElem?.mp member
        cases isSlot.symm.trans (slotOf found)

/--
After any stream the three parts of a counter agree and hold at most as many
terms as they may, of which a capacity of zero allows one.  The counts add up to
the length of the stream, and what is counted has occurred as often as its count
says, less its error at most.  What is not counted has occurred at most as often
as the smallest count says, which once a term was evicted is an equal share of
the stream at most.  Until then each count is exact, and so is each estimate.
-/
theorem counts_bound
    (capacity : Nat) (stream : List String) :
    (counting capacity stream).Consistent ∧
      (counting capacity stream).terms.length ≤ max capacity 1 ∧
      ((counting capacity stream).terms.map CountedTerm.count).sum = stream.length ∧
      (∀ counted ∈ (counting capacity stream).terms,
        counted.Bounds (stream.count counted.term)) ∧
      (∀ smallest place,
        (counting capacity stream).byCount.min? = some (smallest, place) →
        ∀ term, (counting capacity stream).slot[term]? = none →
          stream.count term ≤ smallest) ∧
      ((counting capacity stream).evicted = true → ∃ smallest place,
        (counting capacity stream).byCount.min? = some (smallest, place) ∧
          smallest ≤ stream.length / max capacity 1) ∧
      ((counting capacity stream).evicted = false →
        (∀ counted ∈ (counting capacity stream).terms,
          counted.count = stream.count counted.term) ∧
        (∀ term, (counting capacity stream).finish.documents term =
          F64.ofInt (stream.count term)) ∧
        ∀ term ∉ stream, (counting capacity stream).finish.documents term =
            F64.positiveZero) := by
  have counts := counts_counting capacity stream
  refine ⟨counts.consistent, counts.few.trans_eq counts.capacity, counts.sum,
    fun counted member => ?_, fun smallest place isFirst term isNone => ?_,
    counts.smallest_le, fun quiet => ⟨fun counted member => ?_,
      counts.documents_finish quiet, fun term unseen => ?_⟩⟩
  · obtain ⟨place, found⟩ := mem_iff_getElem?.mp member
    exact counts.bounds place counted found
  · obtain ⟨⟨old, found, rfl⟩, -⟩ := counts.consistent.least isFirst
    exact counts.untracked term isNone old (mem_of_getElem? found)
  · obtain ⟨place, found⟩ := mem_iff_getElem?.mp member
    have bounds := counts.bounds place counted found
    have noError := (counts.exact quiet).1 counted member
    have lower := bounds.lower
    rw [noError] at lower
    exact Nat.le_antisymm lower bounds.upper
  · rw [counts.documents_finish quiet, count_eq_zero.mpr unseen]
    rfl

end TermCounter

end SlateOrm
