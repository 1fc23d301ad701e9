import Mathlib.Data.List.Forall2
import Mathlib.Data.List.Perm.Basic
import Mathlib.Data.List.Sort

namespace SlateOrm

open List

/-!
# The best of many

A heap that drops its greatest item whenever it holds more than a number of
them keeps the least of the items that it was given.  The heap itself is taken
as its documentation describes it: which of several greatest items is taken
first is left open.
-/

/-! ## Heaps -/

/-- A heap of items, of which the greatest is taken first. -/
structure BinaryHeap where
  push {α : Type} (cmp : α → α → Ordering) (item : α) (held : List α) : List α
  pop {α : Type} (cmp : α → α → Ordering) (held : List α) : Option (α × List α)

/-- Items that are compared consistently. -/
structure OrderedOn {α : Type} (cmp : α → α → Ordering)
    (chosen : α → Prop) : Prop where
  swap : ∀ first second, chosen first → chosen second →
    cmp second first = (cmp first second).swap
  trans : ∀ first second third, chosen first → chosen second →
    chosen third → cmp first second ≠ .gt → cmp second third ≠ .gt →
      cmp first third ≠ .gt

/-- In a list where something holds before it does, it holds of the first. -/
theorem holds_getElem_iff
    {α : Type} {holds : α → Bool} {items : List α}
    (before : items.Pairwise
      (fun first second => holds second = true → holds first = true))
    {place : Nat}
    (inside : place < items.length) :
    holds items[place] = true ↔ place < items.countP holds := by
  induction items generalizing place with
  | nil => cases inside
  | cons first rest ih =>
      obtain ⟨isBefore, beforeRest⟩ := pairwise_cons.mp before
      by_cases isHeld : holds first = true
      · rw [countP_cons_of_pos isHeld]
        cases place with
        | zero => simp [isHeld]
        | succ place =>
            rw [getElem_cons_succ, ih beforeRest (Nat.lt_of_succ_lt_succ inside)]
            exact Nat.succ_lt_succ_iff.symm
      · have none_ : (first :: rest).countP holds = 0 := by
          rw [countP_eq_zero]
          intro item member holdsItem
          rcases mem_cons.mp member with rfl | inRest
          · exact isHeld holdsItem
          · exact isHeld (isBefore item inRest holdsItem)
        rw [none_]
        refine iff_of_false (fun holdsItem => ?_) (Nat.not_lt_zero _)
        have member := getElem_mem inside
        exact countP_eq_zero.mp none_ _ member holdsItem

namespace OrderedOn

section

variable
  {α : Type}
  {cmp : α → α → Ordering}
  {chosen : α → Prop}
  (ordered : OrderedOn cmp chosen)

include ordered

/-- Chosen items are sorted by a sort that compares them. -/
theorem pairwise_mergeSort
    {items : List α}
    (areChosen : ∀ item ∈ items, chosen item) :
    (items.mergeSort (fun first second => cmp first second ≠ .gt)).Pairwise
      (fun first second => cmp first second ≠ .gt) := by
  let before (first second : { item // chosen item }) : Bool := cmp first second ≠ .gt
  have trans : ∀ first second third, before first second = true →
      before second third = true → before first third = true := by
    intro first second third less less'
    exact decide_eq_true (ordered.trans first second third first.2 second.2
      third.2 (of_decide_eq_true less) (of_decide_eq_true less'))
  have total : ∀ first second, (before first second || before second first) = true := by
    intro first second
    have swapped := ordered.swap first second first.2 second.2
    rw [Bool.or_eq_true]
    cases isLess : cmp first second with
    | gt =>
        refine Or.inr (decide_eq_true ?_)
        rw [swapped, isLess]
        nofun
    | lt
    | eq =>
        refine Or.inl (decide_eq_true ?_)
        rw [isLess]
        nofun
  have inOrder := List.pairwise_mergeSort trans total
    (items.attachWith chosen areChosen)
  have same : ((items.attachWith chosen areChosen).mergeSort before).map Subtype.val =
      items.mergeSort (fun first second => cmp first second ≠ .gt) := by
    let compared (first second : α) : Bool := cmp first second ≠ .gt
    have isSame : ∀ first ∈ items.attachWith chosen areChosen,
        ∀ second ∈ items.attachWith chosen areChosen,
          before first second = compared first.1 second.1 :=
      fun _ _ _ _ => rfl
    rw [map_mergeSort isSame, attachWith_map_subtype_val]
  rw [← same, pairwise_map]
  exact inOrder.imp (fun less => of_decide_eq_true less)

theorem lt_of_ne_gt_of_lt
    {first second third : α} (isFirst : chosen first) (isSecond : chosen second)
    (isThird : chosen third)
    (before : cmp first second ≠ .gt)
    (less : cmp second third = .lt) :
    cmp first third = .lt := by
  cases isOrder : cmp first third with
  | lt => rfl
  | eq | gt =>
      have after : cmp third first ≠ .gt := by
        rw [ordered.swap first third isFirst isThird, isOrder]
        nofun
      have reversed := ordered.trans third first second isThird isFirst isSecond
        after before
      rw [ordered.swap second third isSecond isThird, less] at reversed
      exact absurd rfl reversed

/-- Orders of the same items have equals in the same places. -/
theorem forall₂_of_perm
    {items sorted : List α}
    (areChosen : ∀ item ∈ sorted, chosen item)
    (same : items.Perm sorted)
    (inOrder : items.Pairwise (fun first second => cmp first second ≠ .gt))
    (inOrder' : sorted.Pairwise (fun first second => cmp first second ≠ .gt)) :
    List.Forall₂ (fun first second => cmp first second = .eq) items sorted := by
  have areChosen' : ∀ item ∈ items, chosen item :=
    fun item member => areChosen item (same.subset member)
  have below {listed : List α} (areListed : ∀ item ∈ listed, chosen item)
      (listedOrder : listed.Pairwise (fun first second => cmp first second ≠ .gt))
      {pivot : α} (isPivot : chosen pivot) {place : Nat}
      (inside : place < listed.length) :
      cmp listed[place] pivot = .lt ↔
        place < listed.countP (fun item => cmp item pivot = .lt) := by
    rw [← holds_getElem_iff ?_ inside, decide_eq_true_iff]
    refine listedOrder.imp_of_mem ?_
    intro first second member member' before less
    rw [decide_eq_true_iff] at less ⊢
    exact ordered.lt_of_ne_gt_of_lt (areListed first member)
      (areListed second member') isPivot before less
  have irreflexive {item : α} (isItem : chosen item) : cmp item item ≠ .lt := by
    intro less
    have swapped := ordered.swap item item isItem isItem
    rw [less] at swapped
    cases swapped
  rw [forall₂_iff_get]
  refine ⟨same.length_eq, fun place inside inside' => ?_⟩
  rw [get_eq_getElem, get_eq_getElem]
  have isFirst := areChosen' _ (getElem_mem inside)
  have isSecond := areChosen _ (getElem_mem inside')
  have notLess : cmp items[place] sorted[place] ≠ .lt := by
    rw [Ne, below areChosen' inOrder isSecond inside, same.countP_eq,
      ← below areChosen inOrder' isSecond inside']
    exact irreflexive isSecond
  have notLess' : cmp sorted[place] items[place] ≠ .lt := by
    rw [Ne, below areChosen inOrder' isFirst inside', ← same.countP_eq,
      ← below areChosen' inOrder isFirst inside]
    exact irreflexive isFirst
  rw [ordered.swap items[place] sorted[place] isFirst isSecond] at notLess'
  cases isOrder : cmp items[place] sorted[place] with
  | lt => exact absurd isOrder notLess
  | eq => rfl
  | gt =>
      rw [isOrder] at notLess'
      exact absurd rfl notLess'

theorem eq_of_strict
    {sorted : List α}
    (areChosen : ∀ item ∈ sorted, chosen item)
    (strict : sorted.Pairwise (fun first second => cmp first second = .lt)) :
    ∀ first ∈ sorted, ∀ second ∈ sorted, cmp first second = .eq → first = second := by
  have forward : sorted.Pairwise (fun first second =>
      cmp first second = .eq → first = second) := by
    refine strict.imp (fun less equal => ?_)
    rw [less] at equal
    cases equal
  have backward : sorted.Pairwise (flip (fun first second =>
      cmp first second = .eq → first = second)) := by
    refine strict.imp_of_mem ?_
    intro first second member member' less equal
    rw [ordered.swap first second (areChosen first member)
      (areChosen second member'), less] at equal
    cases equal
  exact fun first member second member' => List.Pairwise.forall_of_forall_of_flip
    (fun _ _ _ => rfl) forward backward member member'

theorem eq_of_forall₂
    {items sorted : List α}
    (areChosen : ∀ item ∈ sorted, chosen item)
    (inSorted : ∀ item ∈ items, item ∈ sorted)
    (strict : sorted.Pairwise (fun first second => cmp first second = .lt))
    {chain : List α}
    (within : chain ⊆ sorted)
    (alike : List.Forall₂ (fun first second => cmp first second = .eq) items chain) :
    items = chain := by
  rw [forall₂_iff_get] at alike
  obtain ⟨sameLength, alike⟩ := alike
  refine ext_getElem sameLength (fun place inside inside' => ?_)
  exact ordered.eq_of_strict areChosen strict _ (inSorted _ (getElem_mem inside)) _
    (within (getElem_mem inside')) (alike place inside inside')

theorem eq_of_perm
    {items sorted : List α}
    (areChosen : ∀ item ∈ sorted, chosen item)
    (same : items.Perm sorted)
    (inOrder : items.Pairwise (fun first second => cmp first second ≠ .gt))
    (strict : sorted.Pairwise (fun first second => cmp first second = .lt)) :
    items = sorted := by
  have inOrder' : sorted.Pairwise (fun first second => cmp first second ≠ .gt) := by
    refine strict.imp (fun less => ?_)
    rw [less]
    nofun
  exact ordered.eq_of_forall₂ areChosen (fun item member => same.subset member) strict
    (List.Subset.refl _) (ordered.forall₂_of_perm areChosen same inOrder inOrder')

end

end OrderedOn

namespace BinaryHeap

section

variable
  {α : Type}
  (heap : BinaryHeap)
  (cmp : α → α → Ordering)

/-- What a heap may hold that only chosen items are put into. -/
inductive Reached (chosen : α → Prop) : List α → Prop
  | empty : Reached chosen []
  | push {item : α} {held : List α} : chosen item → Reached chosen held →
      Reached chosen (heap.push cmp item held)
  | pop {greatest : α} {held rest : List α} :
      Reached chosen held → heap.pop cmp held = some (greatest, rest) →
      Reached chosen rest

/-- Put an item in, and take the greatest out if the heap holds too many. -/
def keepOne (window : Nat) (item : α) (held : List α) : List α :=
  let pushed := heap.push cmp item held
  if window < pushed.length then
    match heap.pop cmp pushed with
    | some (_, rest) => rest
    | none => pushed
  else
    pushed

/-- Put items in one after the other. -/
def keepBest (window : Nat) (held : List α) : List α → List α
  | [] => held
  | item :: rest => keepBest window (heap.keepOne cmp window item held) rest

/-- Take a number of items out, the greatest first. -/
def popAll : Nat → List α → List α
  | 0, _ => []
  | count + 1, held =>
      match heap.pop cmp held with
      | some (greatest, rest) => greatest :: popAll count rest
      | none => []

/-- The least items of a list, in order. -/
def topN (window : Nat) (items : List α) : List α :=
  let held := heap.keepBest cmp window [] items
  (heap.popAll cmp held.length held).reverse

end

/-- What is relied on of a heap. -/
structure Lawful (heap : BinaryHeap) : Prop where
  push_perm : ∀ {α : Type} (cmp : α → α → Ordering) (item : α)
    (held : List α), (heap.push cmp item held).Perm (item :: held)
  pop_isSome : ∀ {α : Type} (cmp : α → α → Ordering) (held : List α),
    held ≠ [] → (heap.pop cmp held).isSome
  pop_perm : ∀ {α : Type} (cmp : α → α → Ordering) {held rest : List α}
    {greatest : α}, heap.pop cmp held = some (greatest, rest) →
      held.Perm (greatest :: rest)
  greatest : ∀ {α : Type} {cmp : α → α → Ordering} {chosen : α → Prop},
    OrderedOn cmp chosen → ∀ {held rest : List α} {greatest : α},
      heap.Reached cmp chosen held →
      heap.pop cmp held = some (greatest, rest) → ∀ item ∈ held, cmp item greatest ≠ .gt
  push_map : ∀ {α β : Type} (change : α → β) (cmp : β → β → Ordering)
    (item : α) (held : List α), heap.push cmp (change item) (held.map change) =
        (heap.push (fun first second => cmp (change first) (change second))
          item held).map change
  pop_map : ∀ {α β : Type} (change : α → β) (cmp : β → β → Ordering)
    (held : List α), heap.pop cmp (held.map change) =
        (heap.pop (fun first second => cmp (change first) (change second))
          held).map (fun popped => (change popped.1, popped.2.map change))

namespace Lawful

variable
  {heap : BinaryHeap}
  (lawful : heap.Lawful)

include lawful

/-! ## Changed items -/

section

variable
  {α β : Type}
  (change : α → β)
  (cmp : β → β → Ordering)

end

/-! ## The items that are kept -/

section

variable
  {α : Type}
  {cmp : α → α → Ordering}
  {chosen : α → Prop}

/-- The items that are held are no greater than those that were dropped. -/
structure Keeps (heap : BinaryHeap) (cmp : α → α → Ordering)
    (chosen : α → Prop) (window : Nat) (held dropped : List α) : Prop where
  reached : heap.Reached cmp chosen held
  short : held.length ≤ window
  full : dropped ≠ [] → held.length = window
  chosen : ∀ item ∈ held ++ dropped, chosen item
  least : ∀ item ∈ held, ∀ other ∈ dropped, cmp item other ≠ .gt

section

variable
  (ordered : OrderedOn cmp chosen)

include ordered

/-- One more item is held, or one is dropped. -/
theorem keeps_keepOne
    {window : Nat} {held dropped : List α}
    (keeps : Keeps heap cmp chosen window held dropped) {item : α}
    (isChosen : chosen item) :
    ∃ dropped', Keeps heap cmp chosen window
        (heap.keepOne cmp window item held) dropped' ∧
      (heap.keepOne cmp window item held ++ dropped').Perm
        (item :: (held ++ dropped)) := by
  have pushed := lawful.push_perm cmp item held
  have reached : heap.Reached cmp chosen (heap.push cmp item held) :=
    .push isChosen keeps.reached
  have isLength : (heap.push cmp item held).length = held.length + 1 := pushed.length_eq
  have areChosen : ∀ other ∈ item :: (held ++ dropped), chosen other :=
    forall_mem_cons.mpr ⟨isChosen, keeps.chosen⟩
  rw [keepOne]
  by_cases tooMany : window < (heap.push cmp item held).length
  · rw [if_pos tooMany]
    have isFull : held.length = window := Nat.le_antisymm keeps.short (by omega)
    have nonempty : heap.push cmp item held ≠ [] := by
      intro isNil
      rw [isNil] at isLength
      cases isLength
    obtain ⟨⟨greatest, rest⟩, popped⟩ :=
      Option.isSome_iff_exists.mp (lawful.pop_isSome cmp _ nonempty)
    rw [popped]
    dsimp only
    have split := pushed.symm.trans (lawful.pop_perm cmp popped)
    have most := lawful.greatest ordered reached popped
    have all : (rest ++ greatest :: dropped).Perm (item :: (held ++ dropped)) := by
      refine perm_middle.trans ?_
      exact (split.append_right dropped).symm
    refine ⟨greatest :: dropped, ⟨.pop reached popped, ?_, ?_, ?_, ?_⟩, all⟩
    · have lengths := split.length_eq
      rw [length_cons, length_cons] at lengths
      omega
    · intro _
      have lengths := split.length_eq
      rw [length_cons, length_cons] at lengths
      omega
    · exact fun other member => areChosen other (all.subset member)
    · intro kept isKept other isDropped
      have inPushed : kept ∈ heap.push cmp item held :=
        (pushed.trans split).symm.subset (mem_cons_of_mem _ isKept)
      have atMost := most kept inPushed
      rcases mem_cons.mp isDropped with rfl | isDropped
      · exact atMost
      · by_cases wasHeld : greatest ∈ held
        · exact ordered.trans kept greatest other (areChosen kept
            (all.subset (mem_append_left _ isKept)))
            (areChosen greatest (mem_cons_of_mem _ (mem_append_left _ wasHeld)))
            (areChosen other (mem_cons_of_mem _ (mem_append_right _ isDropped)))
            atMost (keeps.least greatest wasHeld other isDropped)
        · -- The item itself was the greatest, and the others are still held.
          have inSplit : greatest ∈ item :: held := split.symm.subset (mem_cons_self ..)
          obtain rfl := (mem_cons.mp inSplit).resolve_right wasHeld
          have wasKept : kept ∈ held := (List.Perm.cons_inv split).symm.subset isKept
          exact keeps.least kept wasKept other isDropped
  · rw [if_neg tooMany]
    have all : (heap.push cmp item held ++ dropped).Perm (item :: (held ++ dropped)) :=
      pushed.append_right dropped
    have noneDropped : dropped = [] := by
      by_contra someDropped
      have isFull := keeps.full someDropped
      omega
    refine ⟨dropped, ⟨reached, Nat.le_of_not_lt tooMany, ?_, ?_, ?_⟩, all⟩
    · exact fun someDropped => absurd noneDropped someDropped
    · exact fun other member => areChosen other (all.subset member)
    · rw [noneDropped]
      nofun

theorem keeps_keepBest
    {window : Nat} {held dropped items : List α}
    (keeps : Keeps heap cmp chosen window held dropped)
    (areChosen : ∀ item ∈ items, chosen item) :
    ∃ dropped', Keeps heap cmp chosen window
        (heap.keepBest cmp window held items) dropped' ∧
      (heap.keepBest cmp window held items ++ dropped').Perm
        (items ++ (held ++ dropped)) := by
  induction items generalizing held dropped with
  | nil => exact ⟨dropped, keeps, .refl _⟩
  | cons item rest ih =>
      obtain ⟨isChosen, areChosen⟩ := forall_mem_cons.mp areChosen
      obtain ⟨dropped', keeps', same⟩ := lawful.keeps_keepOne ordered keeps isChosen
      obtain ⟨dropped'', keeps'', same'⟩ := ih keeps' areChosen
      refine ⟨dropped'', keeps'', same'.trans ?_⟩
      exact (same.append_left rest).trans perm_middle

theorem popAll_spec
    {held : List α} (reached : heap.Reached cmp chosen held) :
    (heap.popAll cmp held.length held).Perm held ∧
      (heap.popAll cmp held.length held).Pairwise
        (fun item other => cmp other item ≠ .gt) := by
  generalize isCount : held.length = count
  induction count generalizing held with
  | zero =>
      rw [length_eq_zero_iff.mp isCount]
      exact ⟨.nil, .nil⟩
  | succ count ih =>
      have nonempty : held ≠ [] := by
        rintro rfl
        cases isCount
      obtain ⟨⟨greatest, rest⟩, popped⟩ :=
        Option.isSome_iff_exists.mp (lawful.pop_isSome cmp _ nonempty)
      have split := lawful.pop_perm cmp popped
      have isRest : rest.length = count := by
        have lengths := split.length_eq
        rw [length_cons] at lengths
        omega
      obtain ⟨same, inOrder⟩ := ih (.pop reached popped) isRest
      rw [popAll, popped]
      refine ⟨(same.cons greatest).trans split.symm,
        pairwise_cons.mpr ⟨fun other member => ?_, inOrder⟩⟩
      exact lawful.greatest ordered reached popped other
        (split.symm.subset (mem_cons_of_mem _ (same.subset member)))

/-- The best of some items come in order, and before all the others. -/
theorem topN_spec
    (window : Nat) {items : List α}
    (areChosen : ∀ item ∈ items, chosen item) :
    ∃ dropped, (heap.topN cmp window items ++ dropped).Perm items ∧
      (heap.topN cmp window items).Pairwise (fun item other => cmp item other ≠ .gt) ∧
      (∀ item ∈ heap.topN cmp window items, ∀ other ∈ dropped, cmp item other ≠ .gt) ∧
      (heap.topN cmp window items).length = min window items.length := by
  have start : Keeps heap cmp chosen window [] [] :=
    ⟨.empty, Nat.zero_le _, fun some => absurd rfl some, nofun, nofun⟩
  obtain ⟨dropped, keeps, same⟩ := lawful.keeps_keepBest ordered start areChosen
  rw [append_nil, append_nil] at same
  obtain ⟨popped, inOrder⟩ := lawful.popAll_spec ordered keeps.reached
  have isTop := (reverse_perm _).trans popped
  refine ⟨dropped, (isTop.append_right dropped).trans same,
    pairwise_reverse.mpr inOrder, ?_, ?_⟩
  · intro item member
    exact keeps.least item (isTop.subset member)
  · have lengths := same.length_eq
    rw [length_append] at lengths
    have isLength : (heap.topN cmp window items).length =
        (heap.keepBest cmp window [] items).length :=
      isTop.length_eq
    rw [isLength]
    have short := keeps.short
    by_cases noneDropped : dropped = []
    · rw [noneDropped, length_nil] at lengths
      omega
    · have isFull := keeps.full noneDropped
      omega

end

theorem keepBest_subset
    (cmp : α → α → Ordering) (window : Nat) (held items : List α) :
    heap.keepBest cmp window held items ⊆ items ++ held := by
  induction items generalizing held with
  | nil => exact List.Subset.refl _
  | cons item rest ih =>
      have one : heap.keepOne cmp window item held ⊆ item :: held := by
        have pushed := (lawful.push_perm cmp item held).subset
        rw [keepOne]
        split
        · split
          · next popped =>
              have split := lawful.pop_perm cmp popped
              exact fun other member => pushed (split.symm.subset
                (mem_cons_of_mem _ member))
          · exact pushed
        · exact pushed
      intro other member
      rcases mem_append.mp (ih _ member) with
        inRest | inHeld
      · exact mem_append_left _ (mem_cons_of_mem _ inRest)
      · rcases mem_cons.mp (one inHeld) with rfl | inHeld
        · exact mem_append_left _ (mem_cons_self ..)
        · exact mem_append_right _ inHeld

theorem popAll_subset
    (cmp : α → α → Ordering) (count : Nat) (held : List α) :
    heap.popAll cmp count held ⊆ held := by
  induction count generalizing held with
  | zero => exact nil_subset _
  | succ count ih =>
      rw [popAll]
      split
      · next popped =>
          have split := (lawful.pop_perm cmp popped).symm.subset
          refine cons_subset.mpr ⟨split (mem_cons_self ..), ?_⟩
          exact fun other member => split (mem_cons_of_mem _ (ih _ member))
      · exact nil_subset _

theorem topN_subset
    (cmp : α → α → Ordering) (window : Nat) (items : List α) :
    heap.topN cmp window items ⊆ items := by
  intro item member
  have isHeld := lawful.popAll_subset cmp _ _ (mem_reverse.mp member)
  simpa using lawful.keepBest_subset cmp window [] items isHeld

section

variable
  (ordered : OrderedOn cmp chosen)
  (window : Nat)
  {items sorted : List α}
  (areChosen : ∀ item ∈ items, chosen item)
  (same : items.Perm sorted)

include ordered window areChosen same

theorem forall₂_topN
    (inOrder : sorted.Pairwise (fun item other => cmp item other ≠ .gt)) :
    List.Forall₂ (fun item other => cmp item other = .eq)
      (heap.topN cmp window items) (sorted.take window) := by
  obtain ⟨dropped, all, topOrder, least, isLength⟩ :=
    lawful.topN_spec ordered window areChosen
  have inSorted : ∀ item ∈ sorted, chosen item :=
    fun item member => areChosen item (same.symm.subset member)
  have rest := ordered.pairwise_mergeSort (fun item member =>
    areChosen item (all.subset (mem_append_right _ member)))
  have sortedDropped := mergeSort_perm dropped
    (fun first second => cmp first second ≠ .gt)
  have alike := forall₂_take window (ordered.forall₂_of_perm inSorted
    (((sortedDropped.append_left _).trans all).trans same)
    (pairwise_append.mpr ⟨topOrder, rest, fun item member other member' =>
      least item member other (sortedDropped.subset member')⟩) inOrder)
  have others : (dropped.mergeSort (fun first second => cmp first second ≠ .gt)).take
        (window - min window items.length) = [] := by
    rw [take_eq_nil_iff]
    by_cases isShort : window ≤ items.length
    · exact Or.inl (by omega)
    · refine Or.inr (length_eq_zero_iff.mp ?_)
      have lengths := all.length_eq
      rw [length_append] at lengths
      rw [sortedDropped.length_eq]
      omega
  rwa [take_append, isLength, others, append_nil, take_of_length_le (by omega)] at alike

end

end

end Lawful

/-! ## A heap that looks through its items -/

section

variable {α : Type}

/-- Take the greatest of some items out, the last of them if there are many. -/
def takeGreatest (cmp : α → α → Ordering) : List α → Option (α × List α)
  | [] => none
  | item :: rest =>
      match takeGreatest cmp rest with
      | none => some (item, [])
      | some (greatest, others) =>
          if cmp item greatest = .gt then
            some (item, greatest :: others)
          else
            some (greatest, item :: others)

theorem takeGreatest_isSome
    (cmp : α → α → Ordering) {held : List α}
    (nonempty : held ≠ []) :
    (takeGreatest cmp held).isSome := by
  cases held with
  | nil => exact absurd rfl nonempty
  | cons item rest =>
      rw [takeGreatest]
      split
      · rfl
      · split <;> rfl

theorem takeGreatest_perm
    (cmp : α → α → Ordering) {held rest : List α} {greatest : α}
    (taken : takeGreatest cmp held = some (greatest, rest)) :
    held.Perm (greatest :: rest) := by
  induction held generalizing greatest rest with
  | nil => cases taken
  | cons item others ih =>
      rw [takeGreatest] at taken
      split at taken
      · next isNone =>
          cases taken
          cases others with
          | nil => exact .refl _
          | cons other others =>
              have isSome := takeGreatest_isSome cmp (cons_ne_nil other others)
              rw [isNone] at isSome
              cases isSome
      · next last left isSome =>
          have same := ih isSome
          split at taken
          · cases taken
            exact same.cons item
          · cases taken
            exact (same.cons item).trans (.swap ..)

theorem takeGreatest_greatest
    {cmp : α → α → Ordering} {chosen : α → Prop}
    (ordered : OrderedOn cmp chosen) {held rest : List α} {greatest : α}
    (areChosen : ∀ item ∈ held, chosen item)
    (taken : takeGreatest cmp held = some (greatest, rest)) :
    ∀ item ∈ held, cmp item greatest ≠ .gt := by
  have reflexive : ∀ item, chosen item → cmp item item ≠ .gt := by
    intro item isChosen isGreater
    have swapped := ordered.swap item item isChosen isChosen
    rw [isGreater] at swapped
    cases swapped
  induction held generalizing greatest rest with
  | nil => nofun
  | cons first others ih =>
      obtain ⟨isChosen, areChosen⟩ := forall_mem_cons.mp areChosen
      rw [takeGreatest] at taken
      split at taken
      · next isNone =>
          cases taken
          cases others with
          | nil => exact forall_mem_singleton.mpr (reflexive _ isChosen)
          | cons other others =>
              have isSome := takeGreatest_isSome cmp (cons_ne_nil other others)
              rw [isNone] at isSome
              cases isSome
      · next last left isSome =>
          have most := ih areChosen isSome
          have lastChosen := areChosen last
            ((takeGreatest_perm cmp isSome).symm.subset (mem_cons_self ..))
          split at taken
          · next isGreater =>
              cases taken
              refine forall_mem_cons.mpr ⟨reflexive _ isChosen, fun item member => ?_⟩
              refine ordered.trans item last first (areChosen item member)
                lastChosen isChosen (most item member) ?_
              rw [ordered.swap first last isChosen lastChosen, isGreater]
              nofun
          · next notGreater =>
              cases taken
              exact forall_mem_cons.mpr ⟨notGreater, most⟩

theorem takeGreatest_map
    {β : Type} (change : α → β) (cmp : β → β → Ordering) (held : List α) :
    takeGreatest cmp (held.map change) =
      (takeGreatest (fun first second => cmp (change first) (change second))
        held).map (fun popped => (change popped.1, popped.2.map change)) := by
  induction held with
  | nil => rfl
  | cons item rest ih =>
      rw [map_cons, takeGreatest, takeGreatest, ih]
      cases takeGreatest
          (fun first second => cmp (change first) (change second)) rest with
      | none => rfl
      | some taken =>
          dsimp only [Option.map_some]
          split <;> rfl

end

/-- A heap that looks through all of its items. -/
def searched : BinaryHeap where
  push _ item held := item :: held
  pop cmp held := takeGreatest cmp held

theorem lawful_searched : searched.Lawful where
  push_perm _ _ _ := .refl _
  pop_isSome cmp _ nonempty := takeGreatest_isSome cmp nonempty
  pop_perm cmp _ _ _ taken := takeGreatest_perm cmp taken
  greatest := by
    intro α cmp chosen ordered held rest greatest reached taken
    refine takeGreatest_greatest ordered ?_ taken
    clear taken
    induction reached with
    | empty => nofun
    | push isChosen _ ih => exact forall_mem_cons.mpr ⟨isChosen, ih⟩
    | pop _ popped ih =>
        intro item member
        exact ih item ((takeGreatest_perm cmp popped).symm.subset
          (mem_cons_of_mem _ member))
  push_map _ _ _ _ := rfl
  pop_map change cmp held := takeGreatest_map change cmp held

end BinaryHeap

end SlateOrm
