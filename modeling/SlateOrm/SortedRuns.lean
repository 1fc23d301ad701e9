import Mathlib.Data.List.SplitBy
import Mathlib.Data.Finset.Card
import Mathlib.Order.Compare

namespace SlateOrm

open List

/-!
# Runs of a sorted list

A list that is sorted falls into runs of items that are equal in the order, and
everything that stands before an item, beside it or after it can be told from
the runs.  A stable sort keeps the places of equal items in order, so what is
sorted by two orders has the parts that the second order sorts as its runs by
the first.
-/

section

variable {α κ : Type}

/-! ## Runs -/

/-- Runs of items that are equal, each run below the next. -/
structure Runs (cmp : α → α → Ordering) (groups : List (List α)) : Prop where
  notNil : ∀ group ∈ groups, group ≠ []
  alike : ∀ group ∈ groups, ∀ first ∈ group, ∀ second ∈ group, cmp first second = .eq
  apart : groups.Pairwise (fun earlier later =>
    ∀ first ∈ earlier, ∀ second ∈ later, cmp first second = .lt)

variable {cmp : α → α → Ordering}

namespace Runs

theorem tail
    {group : List α} {groups : List (List α)}
    (runs : Runs cmp (group :: groups)) :
    Runs cmp groups where
  notNil := fun other member => runs.notNil other (mem_cons_of_mem _ member)
  alike := fun other member => runs.alike other (mem_cons_of_mem _ member)
  apart := (pairwise_cons.mp runs.apart).2

theorem of_append
    {earlier later : List (List α)} (runs : Runs cmp (earlier ++ later)) :
    Runs cmp earlier where
  notNil := fun group member => runs.notNil group (mem_append_left _ member)
  alike := fun group member => runs.alike group (mem_append_left _ member)
  apart := (pairwise_append.mp runs.apart).1

theorem orders
    [Std.OrientedCmp cmp] {earlier later : List (List α)} {group : List α}
    (runs : Runs cmp (earlier ++ group :: later)) {item : α}
    (member : item ∈ group) :
    (∀ other ∈ earlier.flatten, cmp other item = .lt) ∧
      (∀ other ∈ group, cmp other item = .eq) ∧
      ∀ other ∈ later.flatten, cmp other item = .gt := by
  obtain ⟨_, after, before⟩ := pairwise_append.mp runs.apart
  refine ⟨?_, ?_, ?_⟩
  · intro other inEarlier
    obtain ⟨run, isRun, inRun⟩ := mem_flatten.mp inEarlier
    exact before run isRun group mem_cons_self other inRun item member
  · intro other inGroup
    exact runs.alike group (by simp) other inGroup item member
  · intro other inLater
    obtain ⟨run, isRun, inRun⟩ := mem_flatten.mp inLater
    have less := (pairwise_cons.mp after).1 run isRun item member other inRun
    exact Std.OrientedCmp.gt_iff_lt.mpr less

section

variable
  [Std.OrientedCmp cmp]
  {earlier later : List (List α)}
  {group : List α}
  (runs : Runs cmp (earlier ++ group :: later))
  {item : α}
  (member : item ∈ group)

include runs member

theorem filter_flatten
    (kept : Ordering → Bool) :
    (earlier ++ group :: later).flatten.filter (fun other => kept (cmp other item)) =
      (if kept .lt then earlier.flatten else []) ++ (if kept .eq then group else []) ++
          (if kept .gt then later.flatten else []) := by
  obtain ⟨before, beside, after⟩ := runs.orders member
  have part : ∀ (items : List α) (ordering : Ordering),
      (∀ other ∈ items, cmp other item = ordering) →
        items.filter (fun other => kept (cmp other item)) =
          if kept ordering then items else [] := by
    intro items ordering same
    split
    · next isKept =>
        rw [filter_eq_self]
        intro other isIn
        rwa [same other isIn]
    · next notKept =>
        rw [filter_eq_nil_iff]
        intro other isIn
        rwa [same other isIn]
  rw [flatten_append, flatten_cons, filter_append, filter_append,
    part _ .lt before, part _ .eq beside, part _ .gt after, append_assoc]

theorem filter_eq :
    (earlier ++ group :: later).flatten.filter
      (fun other => cmp other item == .eq) = group := by
  simpa using runs.filter_flatten member (· == .eq)

theorem filter_lt :
    (earlier ++ group :: later).flatten.filter
      (fun other => cmp other item == .lt) = earlier.flatten := by
  simpa using runs.filter_flatten member (· == .lt)

theorem filter_isLE :
    (earlier ++ group :: later).flatten.filter
      (fun other => (cmp other item).isLE) = earlier.flatten ++ group := by
  simpa using runs.filter_flatten member Ordering.isLE

end

/-- There are as many different keys as runs, when keys are what the order
tells apart. -/
theorem length_dedup
    [DecidableEq κ] {key : α → κ} {groups : List (List α)}
    (runs : Runs cmp groups)
    (keys : ∀ first ∈ groups.flatten, ∀ second ∈ groups.flatten,
      key first = key second ↔ cmp first second = .eq) :
    (groups.flatten.map key).dedup.length = groups.length := by
  rw [← card_toFinset]
  induction groups with
  | nil => rfl
  | cons group rest ih =>
      have later := ih runs.tail fun first inFirst second
        inSecond => keys first (mem_append_right _ inFirst) second
          (mem_append_right _ inSecond)
      obtain ⟨first, others, isGroup⟩ :=
        exists_cons_of_ne_nil (runs.notNil group mem_cons_self)
      have firstIn : first ∈ group := isGroup ▸ mem_cons_self
      have one : (group.map key).toFinset = {key first} := by
        ext found
        simp only [mem_toFinset, mem_map, Finset.mem_singleton]
        constructor
        · rintro ⟨other, otherIn, rfl⟩
          exact (keys other (mem_append_left _ otherIn) first
            (mem_append_left _ firstIn)).mpr
              (runs.alike group mem_cons_self other otherIn first firstIn)
        · rintro rfl
          exact ⟨first, firstIn, rfl⟩
      have new : key first ∉ (rest.flatten.map key).toFinset := by
        rw [mem_toFinset, mem_map]
        rintro ⟨other, otherIn, same⟩
        obtain ⟨run, isRun, inRun⟩ := mem_flatten.mp otherIn
        have below := (pairwise_cons.mp runs.apart).1 run isRun first
          firstIn other inRun
        have equal := (keys first (mem_append_left _ firstIn) other
          (mem_append_right _ otherIn)).mp same.symm
        rw [below] at equal
        cases equal
      rw [flatten_cons, map_append, toFinset_append, one, Finset.singleton_union,
        Finset.card_insert_of_notMem new, later, length_cons]

end Runs

/-- A sorted list falls into runs wherever neighbours differ. -/
theorem runs_splitBy
    [Std.TransCmp cmp] {items : List α}
    (sorted : items.Pairwise (fun first second => (cmp first second).isLE = true)) :
    Runs cmp (items.splitBy (fun first second => cmp first second == .eq)) := by
  have trans : IsTrans α (fun first second => cmp first second = .eq) :=
    ⟨fun _ _ _ => Std.TransCmp.eq_trans⟩
  have alike : ∀ group ∈ items.splitBy (fun first second => cmp first second == .eq),
      ∀ first ∈ group, ∀ second ∈ group, cmp first second = .eq := by
    intro group member
    have chain : group.IsChain (fun first second =>
        cmp first second = .eq) := by
      simpa using isChain_of_mem_splitBy member
    have symm : Std.Symm (fun first second : α => cmp first second = .eq) :=
      ⟨fun _ _ same => Std.OrientedCmp.eq_symm same⟩
    exact fun first inFirst second inSecond => (isChain_iff_pairwise.mp
      chain).forall_of_forall (fun _ _ => Std.ReflCmp.compare_self) inFirst inSecond
  refine ⟨fun group member => ne_nil_of_mem_splitBy member, alike, ?_⟩
  have neighbours := isChain_getLast_head_splitBy
    (fun first second => cmp first second == .eq) items
  have inOrder : (items.splitBy
      (fun first second => cmp first second == .eq)).flatten.Pairwise
        (fun first second => (cmp first second).isLE = true) := by
    rwa [flatten_splitBy]
  generalize items.splitBy (fun first second => cmp first second == .eq) =
    groups at alike neighbours inOrder
  induction groups with
  | nil => exact List.Pairwise.nil
  | cons group rest ih =>
      rw [flatten_cons, pairwise_append] at inOrder
      obtain ⟨_, restOrder, across⟩ := inOrder
      refine pairwise_cons.mpr ⟨?_, ih (fun other member => alike other
        (mem_cons_of_mem _ member)) neighbours.tail restOrder⟩
      intro later isLater first inFirst second inSecond
      cases rest with
      | nil => cases isLater
      | cons next others =>
          obtain ⟨⟨groupSome, nextSome, differ⟩, _⟩ := isChain_cons_cons.mp neighbours
          -- The last item of the run is below the first of the next one.
          have lastIn := getLast_mem groupSome
          have headIn := head_mem nextSome
          have step : cmp (group.getLast groupSome) (next.head nextSome) =
              .lt := by
            have atMost := across _ lastIn (next.head nextSome)
              (mem_append_left _ headIn)
            have notEq := beq_eq_false_iff_ne.mp differ
            cases found : cmp (group.getLast groupSome) (next.head nextSome)
            · rfl
            · exact absurd found notEq
            · rw [found] at atMost
              cases atMost
          have before : cmp first (next.head nextSome) = .lt := by
            have same := alike group mem_cons_self first inFirst _ lastIn
            exact Std.TransCmp.lt_of_eq_of_lt same step
          have after : (cmp (next.head nextSome) second).isLE = true := by
            rcases mem_cons.mp isLater with rfl | isOther
            · rw [alike later (by simp) _ headIn second inSecond]
              rfl
            · rw [flatten_cons, pairwise_append] at restOrder
              exact restOrder.2.2 _ headIn second
                (mem_flatten.mpr ⟨later, isOther, inSecond⟩)
          exact Std.TransCmp.lt_of_lt_of_isLE before after

/-! ## Stable sorts -/

/-- The order of items that carry their places. -/
def placedCmp (cmp : α → α → Ordering) (first second : Nat × α) : Ordering :=
  cmp first.2 second.2

instance [Std.TransCmp cmp] : Std.TransCmp (placedCmp cmp) where
  eq_swap := fun {first second} => @Std.OrientedCmp.eq_swap _ cmp _ first.2 second.2
  isLE_trans := fun {first second third} =>
    @Std.TransCmp.isLE_trans _ cmp _ first.2 second.2 third.2

/-- One item is before another: it is below it, or equal and of an earlier
place. -/
def Precedes (cmp : α → α → Ordering) (first second : Nat × α) : Prop :=
  cmp first.2 second.2 = .lt ∨ (cmp first.2 second.2 = .eq ∧ first.1 < second.1)

/-- Sorting keeps equal items in the order of their places. -/
theorem pairwise_precedes_mergeSort
    [Std.TransCmp cmp] {items : List (Nat × α)}
    (placed : items.Pairwise (fun first second => first.1 < second.1)) :
    (items.mergeSort (fun first second =>
      (cmp first.2 second.2).isLE)).Pairwise (Precedes cmp) := by
  let le (first second : Nat × α) : Bool := (cmp first.2 second.2).isLE
  have trans : ∀ first second third, le first second = true →
      le second third = true → le first third = true :=
    fun _ _ _ => Std.TransCmp.isLE_trans
  have total : ∀ first second, (le first second || le second first) = true := by
    intro first second
    have swap := @Std.OrientedCmp.eq_swap _ cmp _ first.2 second.2
    simp only [le, swap]
    cases cmp second.2 first.2 <;> rfl
  rw [← mergeSort_zipIdx, pairwise_map]
  have inOrder := pairwise_mergeSort (zipIdxLE_trans trans)
    (zipIdxLE_total total) items.zipIdx
  have same := mergeSort_perm items.zipIdx (zipIdxLE le)
  have listed : items.zipIdx.Nodup := by
    refine List.Nodup.of_map Prod.snd ?_
    rw [zipIdx_map_snd]
    exact nodup_range'
  have distinct : (items.zipIdx.mergeSort (zipIdxLE le)).Nodup :=
    same.nodup_iff.mpr listed
  refine (inOrder.and distinct).imp_of_mem ?_
  rintro ⟨first, place⟩ ⟨second, place'⟩ isFirst isSecond ⟨atMost, differ⟩
  have firstAt := mem_zipIdx_iff_getElem?.mp (same.subset isFirst)
  have secondAt := mem_zipIdx_iff_getElem?.mp (same.subset isSecond)
  simp only [zipIdxLE, le] at atMost
  cases found : cmp first.2 second.2 with
  | lt => exact Or.inl found
  | gt =>
      rw [found] at atMost
      cases atMost
  | eq =>
      -- Equal items are where they were listed, one before the other.
      have swapped : cmp second.2 first.2 = .eq := Std.OrientedCmp.eq_symm found
      simp only [found, swapped, Ordering.isLE, if_true, decide_eq_true_eq] at atMost
      refine Or.inr ⟨found, ?_⟩
      obtain ⟨inside, isFirst'⟩ := List.getElem?_eq_some_iff.mp firstAt
      obtain ⟨inside', isSecond'⟩ := List.getElem?_eq_some_iff.mp secondAt
      dsimp only at inside inside' isFirst' isSecond'
      have placesDiffer : place ≠ place' := by
        rintro rfl
        exact differ (by rw [← isFirst', ← isSecond'])
      have before := pairwise_iff_getElem.mp placed place place' inside
        inside' (by omega)
      rwa [isFirst', isSecond'] at before

theorem Precedes.asymm
    [Std.OrientedCmp cmp] {first second : Nat × α}
    (before : Precedes cmp first second) :
    ¬ Precedes cmp second first := by
  have swap := @Std.OrientedCmp.eq_swap _ cmp _ first.2 second.2
  rintro (less | ⟨equal, earlier⟩)
  · rw [less] at swap
    rcases before with less' | ⟨equal', _⟩
    · rw [less'] at swap
      cases swap
    · rw [equal'] at swap
      cases swap
  · rw [equal] at swap
    rcases before with less' | ⟨_, earlier'⟩
    · rw [less'] at swap
      cases swap
    · omega

/-- What is sorted by two orders has as its runs by the first one the items
that it does not tell apart, sorted by the second. -/
theorem eq_mergeSort_of_mem_splitBy
    {byFirst bySecond : α → α → Ordering} [Std.TransCmp byFirst]
    [Std.TransCmp bySecond] {items : List (Nat × α)}
    (placed : items.Pairwise (fun first second => first.1 < second.1))
    {group : List (Nat × α)}
    (member : group ∈ (items.mergeSort (fun first second =>
      (compareLex byFirst bySecond first.2 second.2).isLE)).splitBy
        (fun first second => byFirst first.2 second.2 == .eq))
    {item : Nat × α}
    (isIn : item ∈ group) :
    group = (items.filter (fun other => byFirst other.2 item.2 == .eq)).mergeSort
      (fun first second => (bySecond first.2 second.2).isLE) := by
  have inOrder := @pairwise_precedes_mergeSort _
    (compareLex byFirst bySecond) _ _ placed
  have same := mergeSort_perm items (fun first second =>
    (compareLex byFirst bySecond first.2 second.2).isLE)
  generalize items.mergeSort (fun first second => (compareLex byFirst bySecond
    first.2 second.2).isLE) = sorted at member inOrder same
  have byFirstOrder : sorted.Pairwise (fun first second =>
      (placedCmp byFirst first second).isLE = true) := by
    refine inOrder.imp ?_
    rintro first second (less | ⟨equal, _⟩)
    · rw [compareLex, Ordering.then_eq_lt] at less
      rw [placedCmp]
      rcases less with less | ⟨equal, _⟩
      · rw [less]
        rfl
      · rw [equal]
        rfl
    · rw [compareLex, Ordering.then_eq_eq] at equal
      rw [placedCmp, equal.1]
      rfl
  have runs := runs_splitBy byFirstOrder
  have whole := flatten_splitBy
    (fun first second => placedCmp byFirst first second == .eq) sorted
  obtain ⟨earlier, later, isSplit⟩ := append_of_mem member
  change sorted.splitBy
    (fun first second => placedCmp byFirst first second == .eq) = _ at isSplit
  rw [isSplit] at runs whole
  have isGroup := runs.filter_eq isIn
  rw [whole] at isGroup
  rw [← isGroup]
  refine @List.Perm.eq_of_pairwise _ (Precedes bySecond) _ _
    (fun first second _ _ before after => absurd after before.asymm) ?_
    (pairwise_precedes_mergeSort (placed.filter _))
    ((same.filter _).trans (mergeSort_perm _ _).symm)
  -- Within a run the first order is silent.
  refine (inOrder.filter _).imp_of_mem ?_
  intro first second isFirst isSecond before
  have alike : byFirst first.2 second.2 = .eq := by
    have firstEq := beq_iff_eq.mp (mem_filter.mp isFirst).2
    have secondEq := beq_iff_eq.mp (mem_filter.mp isSecond).2
    exact @Std.TransCmp.eq_trans _ byFirst _ _ _ _ firstEq
      (Std.OrientedCmp.eq_symm secondEq)
  simpa only [Precedes, compareLex, alike, Ordering.eq_then] using before

/-! ## Orders that agree on a list -/

theorem mergeSort_congr
    {le le' : α → α → Bool} {items : List α}
    (same : ∀ first ∈ items, ∀ second ∈ items, le first second = le' first second) :
    items.mergeSort le = items.mergeSort le' := by
  have mapped := @List.map_mergeSort _ _ le le' id items same
  rwa [map_id, map_id] at mapped

theorem splitBy_congr
    {test test' : α → α → Bool} {items : List α}
    (same : ∀ first ∈ items, ∀ second ∈ items, test first second = test' first second) :
    items.splitBy test = items.splitBy test' := by
  have whole := flatten_splitBy test' items
  have inItems : ∀ group ∈ items.splitBy test', ∀ item ∈ group, item ∈ items := by
    intro group member item isIn
    rw [← whole]
    exact mem_flatten.mpr ⟨group, member, isIn⟩
  refine splitBy_eq_iff.mpr ⟨whole.symm, nil_notMem_splitBy _ _,
    fun group member => ?_, ?_⟩
  · refine (isChain_of_mem_splitBy member).imp_of_mem_imp ?_
    intro first second isFirst isSecond together
    rwa [same first (inItems group member first isFirst) second
      (inItems group member second isSecond)]
  · refine (isChain_getLast_head_splitBy test' items).imp_of_mem_imp ?_
    rintro first second isFirst isSecond ⟨firstSome, secondSome, differ⟩
    refine ⟨firstSome, secondSome, ?_⟩
    rwa [same _ (inItems first isFirst _ (getLast_mem firstSome)) _
      (inItems second isSecond _ (head_mem secondSome))]

end

end SlateOrm
