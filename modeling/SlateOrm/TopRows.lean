import SlateOrm.WindowedReads
import Mathlib.Data.List.Forall2

namespace SlateOrm

open List

/-!
# The first rows of a sort

A sort that is followed by a limit keeps the rows of its window in a heap, whose
capacity is asked for at once: room for one row more than are kept.  Where that
capacity can be asked for and is served, the rows that are kept come under the same sort keys
as the first rows of all of them sorted.
-/

/-! ## Capacities -/

/-- Why a program stops. -/
inductive Panic where
  | arithmeticOverflow
  | capacityOverflow
  /-- The allocator does not serve a request: the process is aborted. -/
  | outOfMemory
  deriving DecidableEq, Repr

/-- The greatest word. -/
def usizeMax : Nat := 2 ^ 64 - 1

/-- The greatest number of bytes that a collection may take. -/
def isizeMax : Nat := 2 ^ 63 - 1

/-- One more than a word, which wraps in a build that does not check for it. -/
def usizeSucc (checked : Bool) (word : Nat) : Except Panic Nat :=
  if word < usizeMax then
    .ok (word + 1)
  else if checked then
    .error .arithmeticOverflow
  else
    .ok 0

section

variable
  (checked : Bool)
  (serves : Nat → Bool)
  (itemSize : Nat)

/-- Ask for room for items of a size, of an allocator that serves requests. -/
def withCapacity (capacity : Nat) : Except Panic Unit :=
  let bytes := itemSize * capacity
  if isizeMax < bytes then
    .error .capacityOverflow
  else if bytes = 0 ∨ serves bytes then
    .ok ()
  else
    .error .outOfMemory

/-- The rows that sort first, as many as a window has. -/
def topRows (heap : BinaryHeap) (keys : List SortKey) (window : Nat)
    (rows : List Row) : Except Panic (List Row) := do
  let capacity ← usizeSucc checked window
  withCapacity serves itemSize capacity
  return heap.topN (fun left right => compareRows left right keys) window rows

/-- The rows that are kept of a sort for a limit and an offset. -/
def windowedRows (heap : BinaryHeap) (keys : List SortKey) (limit offset : Nat)
    (rows : List Row) : Except Panic (List Row) :=
  let window := usizeSaturatingAdd limit offset
  if 0 < window then
    topRows checked serves itemSize heap keys window rows
  else
    .ok []

/-- Room for a number of items can be asked for, and is served. -/
def Served (capacity : Nat) : Prop := itemSize * capacity ≤ isizeMax ∧
    (itemSize * capacity = 0 ∨ serves (itemSize * capacity) = true)

/-- There is room for a window and one more row. -/
def HasRoom (window : Nat) : Prop :=
  window < usizeMax ∧ Served serves itemSize (window + 1) ∨
    window = usizeMax ∧ checked = false

end

theorem usizeSucc_eq_ok_iff
    {checked : Bool} {word next : Nat}
    (isWord : word ≤ usizeMax) :
    usizeSucc checked word = .ok next ↔ word < usizeMax ∧ next = word + 1 ∨
        word = usizeMax ∧ checked = false ∧ next = 0 := by
  rw [usizeSucc]
  by_cases isSmall : word < usizeMax
  · simp [isSmall, isSmall.ne, eq_comm]
  · have isMax : word = usizeMax := Nat.le_antisymm isWord (Nat.not_lt.mp isSmall)
    cases checked <;> simp [isMax, eq_comm]

variable
  {checked : Bool}
  {serves : Nat → Bool}
  {itemSize window : Nat}

theorem withCapacity_eq_ok_iff
    {capacity : Nat} {asked : Unit} :
    withCapacity serves itemSize capacity = .ok asked ↔
      Served serves itemSize capacity := by
  rw [withCapacity.eq_def, Served]
  dsimp only
  split
  · next tooMany =>
      exact iff_of_false (by simp) (fun fits => Nat.not_lt.mpr fits.1 tooMany)
  · next fits =>
      rw [and_iff_right (Nat.not_lt.mp fits)]
      split
      · next isServed => exact iff_of_true rfl isServed
      · next unserved => exact iff_of_false (by simp) unserved

theorem topRows_eq_ok_iff
    (isWord : window ≤ usizeMax)
    {heap : BinaryHeap} {keys : List SortKey} {rows top : List Row} :
    topRows checked serves itemSize heap keys window rows = .ok top ↔
      HasRoom checked serves itemSize window ∧
        top = heap.topN (fun left right => compareRows left right keys) window
          rows := by
  simp only [topRows, bind_eq_ok, usizeSucc_eq_ok_iff isWord, withCapacity_eq_ok_iff]
  constructor
  · rintro ⟨capacity, isCapacity, _, isServed, isTop⟩
    refine ⟨?_, (Except.ok.inj isTop).symm⟩
    rcases isCapacity with ⟨isSmall, rfl⟩ | ⟨isMax, unchecked, -⟩
    · exact Or.inl ⟨isSmall, isServed⟩
    · exact Or.inr ⟨isMax, unchecked⟩
  · rintro ⟨⟨isSmall, isServed⟩ | ⟨isMax, unchecked⟩, rfl⟩
    · exact ⟨_, Or.inl ⟨isSmall, rfl⟩, (), isServed, rfl⟩
    · refine ⟨0, Or.inr ⟨isMax, unchecked, rfl⟩, (), ?_, rfl⟩
      exact ⟨Nat.zero_le _, Or.inl rfl⟩

/-! ## Sort keys -/

/-- What a row is sorted by. -/
def Row.sortKeys (keys : List SortKey) (row : Row) : List Value :=
  keys.map (fun key => (row.valueOrNull key.column).canonical)

/-- A requested order takes equal values alone for equal. -/
theorem SortKey.compare_eq_iff
    (key : SortKey) (first second : Value) :
    key.compare first second = .eq ↔ first.canonical = second.canonical := by
  rw [← Value.cmp_eq_iff_canonical]
  refine ⟨fun equal => ?_, key.compare_eq_of_cmp⟩
  rw [SortKey.compare] at equal
  cases isNull : first.isNull with
  | true =>
      obtain rfl := Value.eq_null_of_isNull isNull
      cases isNull' : second.isNull with
      | true =>
          obtain rfl := Value.eq_null_of_isNull isNull'
          exact Std.ReflCmp.compare_self
      | false =>
          rw [isNull, isNull'] at equal
          dsimp only at equal
          split at equal <;> cases equal
  | false =>
      cases isNull' : second.isNull with
      | true =>
          rw [isNull, isNull'] at equal
          dsimp only at equal
          split at equal <;> cases equal
      | false =>
          rw [isNull, isNull'] at equal
          dsimp only at equal
          cases isDirection : key.direction with
          | asc => rwa [isDirection] at equal
          | desc =>
              rw [isDirection, Direction.order] at equal
              exact Ordering.swap_eq_eq.mp equal

theorem compareRows_eq_iff
    {first second : Row}
    (sameWidth : first.values.length = second.values.length)
    (keys : List SortKey) :
    compareRows first second keys = .eq ↔
      first.sortKeys keys = second.sortKeys keys := by
  induction keys with
  | nil => exact ⟨fun _ => rfl, fun _ => rfl⟩
  | cons key rest ih =>
      rw [compareRows_cons sameWidth, Ordering.then_eq_eq, SortKey.compare_eq_iff, ih]
      simp only [Row.sortKeys, map_cons, cons.injEq]
      rfl

/-! ## First rows -/

section

variable
  {heap : BinaryHeap}
  (lawful : heap.Lawful)
  (keys : List SortKey)
  {width : Nat}
  {rows : List Row}
  (areWide : ∀ row ∈ rows, row.values.length = width)

include lawful areWide

theorem sortKeys_topN
    (window : Nat) :
    (heap.topN (fun left right => compareRows left right keys) window
        rows).map (Row.sortKeys keys) =
      ((sortedRows keys rows).take window).map (Row.sortKeys keys) := by
  have ordered := orderedOn_compareRows width keys
  have sortedAll := mergeSort_perm rows
    (fun first second => compareRows first second keys ≠ .gt)
  obtain ⟨sameLength, alike⟩ := forall₂_iff_get.mp (lawful.forall₂_topN ordered
    window areWide sortedAll.symm (ordered.pairwise_mergeSort areWide))
  refine ext_getElem ?_ (fun place inside inside' => ?_)
  · rw [length_map, length_map]
    exact sameLength
  · rw [length_map] at inside inside'
    rw [getElem_map, getElem_map]
    refine (compareRows_eq_iff ?_ keys).mp (alike place inside inside')
    rw [areWide _ (lawful.topN_subset _ window rows (getElem_mem inside)),
      areWide _ (sortedAll.subset (take_subset _ _ (getElem_mem inside')))]

theorem topN_subperm
    (window : Nat) :
    List.Subperm (heap.topN (fun left right => compareRows left right keys) window rows)
      rows := by
  obtain ⟨dropped, all, -⟩ :=
    lawful.topN_spec (orderedOn_compareRows width keys) window areWide
  exact (sublist_append_left _ dropped).subperm.trans all.subperm

theorem length_of_topN_iff
    {limit offset : Nat}
    (isLimit : limit ≤ usizeMax)
    (isOffset : offset ≤ usizeMax) :
    (RowWindow.of ⟨some limit, offset⟩
        (heap.topN (fun left right => compareRows left right keys)
          (usizeSaturatingAdd limit offset) rows)).length =
      (RowWindow.of ⟨some limit, offset⟩ (sortedRows keys rows)).length ↔
        limit + offset ≤ usizeMax ∨ rows.length ≤ usizeMax := by
  obtain ⟨-, -, -, -, isLength⟩ := lawful.topN_spec (orderedOn_compareRows width
    keys) (usizeSaturatingAdd limit offset) areWide
  rw [RowWindow.of, RowWindow.of]
  dsimp only
  rw [length_take, length_take, length_drop, length_drop,
    isLength, sortedRows, length_mergeSort, usizeSaturatingAdd]
  rw [usizeMax] at *
  omega

/--
The first rows of a sort have the sort keys of the first of all rows sorted, and
are some of them, exactly when there is room for their window, and the allocator
serves it.  A limit and an
offset show as many of them as of all rows sorted, if there are no more rows
than a word counts where their sum is none.
-/
theorem topRows_exact_iff
    (checked : Bool) (serves : Nat → Bool) (itemSize : Nat) :
    (∀ window ≤ usizeMax,
      (∃ top, topRows checked serves itemSize heap keys window rows = .ok top ∧
          top.map (Row.sortKeys keys) =
            ((sortedRows keys rows).take window).map (Row.sortKeys keys) ∧
          List.Subperm top rows) ↔
        HasRoom checked serves itemSize window) ∧
      ∀ limit ≤ usizeMax, ∀ offset ≤ usizeMax,
        (∃ top, windowedRows checked serves itemSize heap keys limit offset
                rows = .ok top ∧
            (RowWindow.of ⟨some limit, offset⟩ top).length =
              (RowWindow.of ⟨some limit, offset⟩ (sortedRows keys rows)).length) ↔
          (limit + offset = 0 ∨
            HasRoom checked serves itemSize (usizeSaturatingAdd limit offset)) ∧
          (limit + offset ≤ usizeMax ∨ rows.length ≤ usizeMax) := by
  constructor
  · intro window isWord
    constructor
    · rintro ⟨top, isTop, -⟩
      exact ((topRows_eq_ok_iff isWord).mp isTop).1
    · intro hasRoom
      exact ⟨_, (topRows_eq_ok_iff isWord).mpr ⟨hasRoom, rfl⟩, sortKeys_topN
        lawful keys areWide window, topN_subperm lawful keys areWide window⟩
  · intro limit isLimit offset isOffset
    have isWord : usizeSaturatingAdd limit offset ≤ usizeMax := Nat.min_le_right _ _
    rw [windowedRows]
    by_cases isEmpty : limit + offset = 0
    · obtain ⟨rfl, rfl⟩ := Nat.add_eq_zero_iff.mp isEmpty
      rw [if_neg (by decide)]
      refine iff_of_true ⟨[], rfl, ?_⟩ ⟨Or.inl rfl, Or.inl (Nat.zero_le _)⟩
      simp [RowWindow.of]
    · have isSome : 0 < usizeSaturatingAdd limit offset := by
        rw [usizeSaturatingAdd]
        omega
      rw [if_pos isSome, or_iff_right isEmpty]
      simp only [topRows_eq_ok_iff isWord]
      constructor
      · rintro ⟨top, ⟨hasRoom, rfl⟩, sameLength⟩
        exact ⟨hasRoom, (length_of_topN_iff lawful keys areWide isLimit
          isOffset).mp sameLength⟩
      · rintro ⟨hasRoom, isCounted⟩
        exact ⟨_, ⟨hasRoom, rfl⟩, (length_of_topN_iff lawful keys areWide
          isLimit isOffset).mpr isCounted⟩

end

/-- Two scores. -/
def twoScores : List Row := [⟨[.i64 1, .i64 5]⟩, ⟨[.i64 2, .i64 8]⟩]

/-- The first score of two, of an allocator that serves a kilobyte. -/
theorem topRows_exact_iff_scores :
    (∃ top, topRows true (· ≤ 1024) 40 .searched [⟨1, .desc, .last⟩] 1
          twoScores = .ok top ∧
        top.map (Row.sortKeys [⟨1, .desc, .last⟩]) =
          ((sortedRows [⟨1, .desc, .last⟩] twoScores).take 1).map
            (Row.sortKeys [⟨1, .desc, .last⟩]) ∧
        List.Subperm top twoScores) ∧
      ¬∃ top, topRows true (· ≤ 1024) 40 .searched [⟨1, .desc, .last⟩]
        (2 ^ 57) [] = .ok top ∧ top.map (Row.sortKeys [⟨1, .desc, .last⟩]) =
          ((sortedRows [⟨1, .desc, .last⟩] []).take (2 ^ 57)).map
            (Row.sortKeys [⟨1, .desc, .last⟩]) ∧ List.Subperm top [] := by
  have areWide : ∀ row ∈ twoScores, row.values.length = 2 := by
    simp [twoScores]
  have noneWide : ∀ row ∈ ([] : List Row), row.values.length = 2 := by
    simp
  constructor
  · refine ((topRows_exact_iff BinaryHeap.lawful_searched
      [⟨1, .desc, .last⟩] areWide true (· ≤ 1024) 40).1 1 (by decide)).mpr ?_
    exact Or.inl ⟨by decide, by decide, Or.inr (by decide)⟩
  · intro exact_
    rcases ((topRows_exact_iff BinaryHeap.lawful_searched
      [⟨1, .desc, .last⟩] noneWide true (· ≤ 1024) 40).1 (2 ^ 57)
        (by decide)).mp exact_ with ⟨-, -, isServed⟩ | ⟨isMax, -⟩
    · exact absurd isServed (by decide)
    · exact absurd isMax (by decide)

/-- A limit that no room can be asked for keeps nothing, of nothing. -/
theorem not_exact_topRows :
    ¬∀ (checked : Bool) (serves : Nat → Bool) (heap : BinaryHeap),
      heap.Lawful → ∀ (keys : List SortKey) (width : Nat) (rows : List Row),
        (∀ row ∈ rows, row.values.length = width) →
        ∀ window ≤ usizeMax,
          ∃ top, topRows checked serves 40 heap keys window rows = .ok top ∧
            top.map (Row.sortKeys keys) =
              ((sortedRows keys rows).take window).map (Row.sortKeys keys) ∧
            List.Subperm top rows := by
  intro always
  obtain ⟨top, isTop, -⟩ := always false (fun _ => true) .searched
    BinaryHeap.lawful_searched [⟨1, .desc, .last⟩] 2 [] (by simp) (2 ^ 60)
    (by decide)
  cases isTop

end SlateOrm
