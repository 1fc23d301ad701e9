import SlateOrm.WindowFrames

namespace SlateOrm

open List

/-!
# The values of windows

Over one partition a window's counters follow the runs of peers: what has been
passed before a run is what is strictly before its rows, and what has been
folded in with it is what is not after them.  Offsets count along the partition
itself.  Every value is then put in the row it is of.
-/

/-! ## What is computed -/

open Classical in
/-- What a window computes of the row at a place of what it sees. -/
def Window.Computes (window : Window) (limits : ExecutionLimits)
    (frame : List PlacedRow) (place : Nat) (row : Row) (value : Value) : Prop :=
  match window.function with
  | .rowNumber => value = .u64 (UInt64.ofNat (place + 1))
  | .rank =>
      value = .u64 (UInt64.ofNat (frame.countP (fun other =>
        compareRows other.2 row window.order == .lt) + 1))
  | .denseRank =>
      value = .u64 (UInt64.ofNat (((frame.filter (fun other =>
        compareRows other.2 row window.order == .lt)).map (fun other =>
          other.2.sortKeys window.order)).dedup.length + 1))
  | .over aggregate =>
      ∃ accumulators : Accumulators,
        (Accumulators.withLimits [aggregate] limits).pushAll (frame.filter (fun other =>
            (compareRows other.2 row window.order).isLE)) = .ok accumulators ∧
          value = accumulators.value
  | .lag column offset =>
      value = if offset ≤ place then
        ((frame[place - offset]?).bind (fun other => other.2.get column)).getD .null
      else
        .null
  | .lead column offset =>
      value = ((frame[place + offset]?).bind (fun other =>
        other.2.get column)).getD .null

/-- Cells that give each row of a list its value, in the list's order. -/
def CellsOf (holds : Nat → PlacedRow → Value → Prop) (frame : List PlacedRow)
    (cells : List (Nat × Value)) : Prop :=
  cells.length = frame.length ∧ ∀ place placed, frame[place]? = some placed →
      ∃ value, cells[place]? = some (placed.1, value) ∧ holds place placed value

theorem cellsOf_zipIdx
    (value : PlacedRow → Nat → Value) (frame : List PlacedRow) :
    CellsOf (fun place placed found => found = value placed place) frame
      (frame.zipIdx.map (fun entry =>
        (entry.1.1, value entry.1 entry.2))) := by
  refine ⟨by simp, fun place placed found => ⟨_, ?_, rfl⟩⟩
  rw [getElem?_map, getElem?_zipIdx, found]
  simp

theorem cellsOf_of_forall₂
    {holds : PlacedRow → Value → Prop} {frame : List PlacedRow}
    {cells : List (Nat × Value)}
    (each : List.Forall₂ (fun placed cell =>
      cell.1 = placed.1 ∧ holds placed cell.2) frame cells) :
    CellsOf (fun _ => holds) frame cells := by
  obtain ⟨sameLength, each⟩ := forall₂_iff_get.mp each
  refine ⟨sameLength.symm, fun place placed found => ?_⟩
  obtain ⟨inside, rfl⟩ := List.getElem?_eq_some_iff.mp found
  obtain ⟨samePlace, isHeld⟩ := each place inside (sameLength ▸ inside)
  refine ⟨_, ?_, isHeld⟩
  rw [getElem?_eq_getElem (sameLength ▸ inside)]
  exact congrArg some (Prod.ext samePlace rfl)

/-! ## Runs of peers -/

theorem forall₂_shareValue
    (value : Value) (peers : List PlacedRow) :
    List.Forall₂ (fun placed cell =>
        cell.1 = placed.1 ∧ placed ∈ peers ∧ cell.2 = value)
      peers (shareValue value peers) := by
  rw [shareValue, forall₂_map_right_iff, forall₂_same]
  exact fun placed member => ⟨rfl, member, rfl⟩

theorem forall₂_peerRanks
    (dense : Bool) (earlier later : List (List PlacedRow)) :
    List.Forall₂ (fun placed cell => cell.1 = placed.1 ∧
        ∃ before peers after, earlier ++ later = before ++ peers :: after ∧
          placed ∈ peers ∧
          cell.2 = .u64 (UInt64.ofNat
            ((if dense then before.length else before.flatten.length) + 1)))
      later.flatten
      (peerRanks dense earlier.flatten.length earlier.length later) := by
  induction later generalizing earlier with
  | nil => exact List.Forall₂.nil
  | cons peers rest ih =>
      rw [peerRanks, flatten_cons]
      refine rel_append ?_ ?_
      · refine (forall₂_shareValue _ peers).imp ?_
        rintro placed cell ⟨samePlace, member, isValue⟩
        exact ⟨samePlace, earlier, peers, rest, rfl, member, isValue⟩
      · have following := ih (earlier ++ [peers])
        rw [append_assoc, singleton_append, flatten_append, flatten_singleton,
          length_append, length_append, length_singleton] at following
        exact following

/-- A running aggregate has folded in what is before a run, and the run. -/
theorem forall₂_runningValues
    {start accumulators : Accumulators} {earlier later : List (List PlacedRow)}
    {cells : List (Nat × Value)}
    (folded : start.pushAll earlier.flatten = .ok accumulators)
    (computed : runningValues accumulators later = .ok cells) :
    List.Forall₂ (fun placed cell => cell.1 = placed.1 ∧
        ∃ before peers after, earlier ++ later = before ++ peers :: after ∧
          placed ∈ peers ∧
          ∃ covered : Accumulators,
            start.pushAll (before.flatten ++ peers) = .ok covered ∧
              cell.2 = covered.value)
      later.flatten cells := by
  induction later generalizing earlier accumulators cells with
  | nil =>
      cases computed
      exact List.Forall₂.nil
  | cons peers rest ih =>
      rw [runningValues] at computed
      obtain ⟨next, pushed, computed⟩ := bind_eq_ok.mp computed
      obtain ⟨others, computedRest, computed⟩ := bind_eq_ok.mp computed
      cases computed
      have covered : start.pushAll (earlier.flatten ++ peers) = .ok next :=
        foldlM_append_ok.mpr ⟨accumulators, folded, pushed⟩
      rw [flatten_cons]
      refine rel_append ?_ ?_
      · refine (forall₂_shareValue _ peers).imp ?_
        rintro placed cell ⟨samePlace, member, isValue⟩
        exact ⟨samePlace, earlier, peers, rest, rfl, member, next, covered, isValue⟩
      · have folded' : start.pushAll (earlier ++ [peers]).flatten = .ok next := by
          rwa [flatten_append, flatten_singleton]
        have following := ih folded' computedRest
        rwa [append_assoc, singleton_append] at following

theorem exists_runningValues_iff
    (accumulators : Accumulators) (groups : List (List PlacedRow)) :
    (∃ cells, runningValues accumulators groups = .ok cells) ↔
      ∃ last, accumulators.pushAll groups.flatten = .ok last := by
  induction groups generalizing accumulators with
  | nil => exact ⟨fun _ => ⟨accumulators, rfl⟩, fun _ => ⟨[], rfl⟩⟩
  | cons peers rest ih =>
      rw [flatten_cons]
      constructor
      · rintro ⟨cells, computed⟩
        rw [runningValues] at computed
        obtain ⟨next, pushed, computed⟩ := bind_eq_ok.mp computed
        obtain ⟨others, computedRest, _⟩ := bind_eq_ok.mp computed
        obtain ⟨last, folded⟩ := (ih next).mp ⟨others, computedRest⟩
        exact ⟨last, foldlM_append_ok.mpr ⟨next, pushed, folded⟩⟩
      · rintro ⟨last, folded⟩
        obtain ⟨next, pushed, folded⟩ := foldlM_append_ok.mp folded
        obtain ⟨others, computedRest⟩ := (ih next).mpr ⟨last, folded⟩
        refine ⟨shareValue next.value peers ++ others, ?_⟩
        rw [runningValues]
        exact bind_eq_ok.mpr ⟨next, pushed, bind_eq_ok.mpr ⟨others, computedRest, rfl⟩⟩

/-! ## Values of a partition -/

theorem Window.exists_values_iff
    (limits : ExecutionLimits) (window : Window) (frame : List PlacedRow) :
    (∃ cells, window.values limits frame = .ok cells) ↔
      ∀ aggregate, window.function = .over aggregate → ∃ accumulators : Accumulators,
          (Accumulators.withLimits [aggregate] limits).pushAll frame =
            .ok accumulators := by
  cases isFunction : window.function with
  | «over» aggregate =>
      simp only [Window.values, isFunction, WindowFunction.over.injEq, forall_eq']
      split
      · constructor
        · rintro ⟨cells, computed⟩
          obtain ⟨accumulators, folded, _⟩ := bind_eq_ok.mp computed
          exact ⟨accumulators, folded⟩
        · rintro ⟨accumulators, folded⟩
          exact ⟨_, bind_eq_ok.mpr ⟨accumulators, folded, rfl⟩⟩
      · rw [exists_runningValues_iff, peerGroups, flatten_splitBy]
  | _ => simp [Window.values, isFunction]

section

variable
  {limits : ExecutionLimits}
  {window : Window}
  {frame : List PlacedRow}
  {width : Nat}
  (sameWidth : ∀ placed ∈ frame, placed.2.values.length = width)
  (sorted : frame.Pairwise (fun first second =>
    (compareRows first.2 second.2 window.order).isLE = true))

include sameWidth sorted

/-- What is before a row of a partition, and what is not after it, is told by
the runs of peers. -/
theorem peerGroups_spec
    {earlier later : List (List PlacedRow)} {peers : List PlacedRow}
    (isSplit : peerGroups frame window.order = earlier ++ peers :: later)
    {placed : PlacedRow}
    (isIn : placed ∈ peers) :
    frame.filter (fun other =>
        compareRows other.2 placed.2 window.order == .lt) = earlier.flatten ∧
      frame.filter (fun other =>
        (compareRows other.2 placed.2 window.order).isLE) = earlier.flatten ++ peers ∧
      ∀ [DecidableEq (List Value)], (earlier.flatten.map (fun other =>
          other.2.sortKeys window.order)).dedup.length = earlier.length := by
  obtain ⟨byOrder, _, isOrder⟩ := exists_transCmp_compareRows width window.order
  have alike : ∀ first ∈ frame, ∀ second ∈ frame,
      compareRows first.2 second.2 window.order = placedCmp byOrder first second :=
    fun first isFirst second isSecond => isOrder _ _
      (sameWidth first isFirst) (sameWidth second isSecond)
  have whole : frame = (earlier ++ peers :: later).flatten := by
    rw [← isSplit, peerGroups, flatten_splitBy]
  have runs : Runs (placedCmp byOrder) (earlier ++ peers :: later) := by
    have cuts : peerGroups frame window.order = frame.splitBy
        (fun first second => placedCmp byOrder first second == .eq) := by
      refine splitBy_congr fun first isFirst second isSecond => ?_
      rw [alike first isFirst second isSecond]
    rw [← isSplit, cuts]
    refine runs_splitBy (sorted.imp_of_mem fun isFirst isSecond atMost => ?_)
    rwa [← alike _ isFirst _ isSecond]
  have inFrame : ∀ other ∈ (earlier ++ peers :: later).flatten, other ∈ frame := by
    rw [← whole]
    exact fun _ member => member
  have isPlaced : placed ∈ frame := inFrame _ (mem_flatten.mpr ⟨peers, by simp, isIn⟩)
  refine ⟨?_, ?_, ?_⟩
  · rw [← runs.filter_lt isIn, ← whole]
    refine filter_congr fun other isOther => ?_
    rw [alike other isOther placed isPlaced]
  · rw [← runs.filter_isLE isIn, ← whole]
    refine filter_congr fun other isOther => ?_
    rw [alike other isOther placed isPlaced]
  · intro decidable
    refine runs.of_append.length_dedup fun first isFirst second isSecond => ?_
    have first_ := inFrame first (by simp_all)
    have second_ := inFrame second (by simp_all)
    rw [← alike first first_ second second_, compareRows_eq_iff
      ((sameWidth first first_).trans (sameWidth second second_).symm)]

/-- The values of a partition are what the window computes of its rows. -/
theorem Window.cellsOf_values
    {cells : List (Nat × Value)}
    (computed : window.values limits frame = .ok cells) :
    CellsOf (fun place placed value =>
      window.Computes limits frame place placed.2 value) frame cells := by
  classical
  have whole : (peerGroups frame window.order).flatten = frame := flatten_splitBy _ _
  cases isFunction : window.function with
  | rowNumber =>
      simp only [Window.values, isFunction, Except.ok.injEq] at computed
      subst computed
      simp only [Window.Computes, isFunction]
      exact cellsOf_zipIdx (fun _ place => .u64 (UInt64.ofNat (place + 1))) frame
  | lag column offset =>
      simp only [Window.values, isFunction, Except.ok.injEq] at computed
      subst computed
      simp only [Window.Computes, isFunction]
      convert cellsOf_zipIdx (fun _ place => valueAt frame column
        (if offset ≤ place then some (place - offset) else none)) frame
        using 5
      rw [valueAt]
      split <;> rfl
  | lead column offset =>
      simp only [Window.values, isFunction, Except.ok.injEq] at computed
      subst computed
      simp only [Window.Computes, isFunction]
      exact cellsOf_zipIdx (fun _ place => valueAt frame column
        (some (place + offset))) frame
  | rank =>
      simp only [Window.values, isFunction, Except.ok.injEq] at computed
      subst computed
      simp only [Window.Computes, isFunction]
      have each := forall₂_peerRanks false [] (peerGroups frame window.order)
      rw [whole] at each
      refine cellsOf_of_forall₂ (each.imp ?_)
      rintro placed cell ⟨samePlace, before, peers, after, isSplit, isIn, isValue⟩
      have below := (peerGroups_spec sameWidth sorted isSplit isIn).1
      refine ⟨samePlace, ?_⟩
      rw [isValue, countP_eq_length_filter, below]
      rfl
  | denseRank =>
      simp only [Window.values, isFunction, Except.ok.injEq] at computed
      subst computed
      simp only [Window.Computes, isFunction]
      have each := forall₂_peerRanks true [] (peerGroups frame window.order)
      rw [whole] at each
      refine cellsOf_of_forall₂ (each.imp ?_)
      rintro placed cell ⟨samePlace, before, peers, after, isSplit, isIn, isValue⟩
      obtain ⟨below, _, different⟩ := peerGroups_spec sameWidth sorted isSplit isIn
      refine ⟨samePlace, ?_⟩
      rw [isValue, below, different]
      rfl
  | «over» aggregate =>
      simp only [Window.values, isFunction] at computed
      simp only [Window.Computes, isFunction]
      split at computed
      · next unordered =>
          obtain ⟨accumulators, folded, isCells⟩ := bind_eq_ok.mp computed
          cases isCells
          refine cellsOf_of_forall₂ ((forall₂_shareValue _ frame).imp ?_)
          rintro placed cell ⟨samePlace, _, isValue⟩
          have everything : frame.filter (fun other =>
              (compareRows other.2 placed.2 []).isLE) = frame :=
            filter_eq_self.mpr fun other _ => rfl
          refine ⟨samePlace, accumulators, ?_, isValue⟩
          rwa [isEmpty_iff.mp unordered, everything]
      · have each := @forall₂_runningValues _ _ [] _ _ rfl computed
        rw [whole] at each
        refine cellsOf_of_forall₂ (each.imp ?_)
        rintro placed cell ⟨samePlace, before, peers, after, isSplit, isIn,
          covered, folded, isValue⟩
        have upTo := (peerGroups_spec sameWidth sorted isSplit isIn).2.1
        refine ⟨samePlace, covered, ?_, isValue⟩
        rw [upTo]
        exact folded

end

end SlateOrm
