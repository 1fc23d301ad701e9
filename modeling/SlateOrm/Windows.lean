import Mathlib.Data.List.Forall2
import SlateOrm.Aggregates
import SlateOrm.SchemaBuild

namespace SlateOrm

open List

/-!
# Windows

A window computes a value for each row from the rows of its partition: its
place, its rank, an aggregate of the partition or of what is not after it, or
what a row some places away holds.  The rows stay as they are and in the order
they came in, and get one value for each window.
-/

/-- What is computed of each row over the rows of its partition. -/
inductive WindowFunction where
  | rowNumber
  | rank
  | denseRank
  | over (aggregate : Aggregate)
  | lag (column : Ordinal) (offset : Nat)
  | lead (column : Ordinal) (offset : Nat)

/-- The column a window function reads, if any. -/
def WindowFunction.column : WindowFunction → Option Ordinal
  | .rowNumber | .rank | .denseRank => none
  | .over aggregate => aggregate.column
  | .lag column _ | .lead column _ => some column

/-- A function over the partitions of the rows. -/
structure Window where
  function : WindowFunction
  partition : List Ordinal
  order : List SortKey

/-- Every column that a window reads. -/
def Window.columns (window : Window) : List Ordinal :=
  window.function.column.toList ++ window.partition ++ window.order.map SortKey.column

/-- Ascending, nulls where the storage puts them. -/
def SortKey.asc (column : Ordinal) : SortKey := ⟨column, .asc, .first⟩

/-- A row, after the place it came in. -/
abbrev PlacedRow := Nat × Row

/-- The runs of rows that are equal by some keys. -/
def peerGroups (rows : List PlacedRow) (keys : List SortKey) : List (List PlacedRow) :=
  rows.splitBy (fun left right => compareRows left.2 right.2 keys == .eq)

/-- One value for all the rows of a run. -/
def shareValue (value : Value) (peers : List PlacedRow) : List (Nat × Value) :=
  peers.map (fun placed => (placed.1, value))

/-- Ranks: by the rows before a run of peers, or by the runs before it. -/
def peerRanks (dense : Bool) : Nat → Nat → List (List PlacedRow) → List (Nat × Value)
  | _, _, [] => []
  | before, group, peers :: rest =>
      let rank := if dense then group else before
      shareValue (.u64 (UInt64.ofNat (rank + 1))) peers ++
        peerRanks dense (before + peers.length) (group + 1) rest

/-- The value of accumulators of one aggregate. -/
def Accumulators.value (accumulators : Accumulators) : Value :=
  accumulators.finish.headD .null

/-- Fold placed rows in. -/
def Accumulators.pushAll (accumulators : Accumulators)
    (rows : List PlacedRow) : Except KernelError Accumulators :=
  rows.foldlM (fun accumulators placed => accumulators.push placed.2) accumulators

/-- Running aggregates: every peer sees what includes all of its peers. -/
def runningValues (accumulators : Accumulators) :
    List (List PlacedRow) → Except KernelError (List (Nat × Value))
  | [] => .ok []
  | peers :: rest => do
      let accumulators ← accumulators.pushAll peers
      let later ← runningValues accumulators rest
      return shareValue accumulators.value peers ++ later

/-- What the row in some place of a partition holds in a column. -/
def valueAt (rows : List PlacedRow) (column : Ordinal) (place : Option Nat) :
    Value :=
  ((place.bind (fun place => rows[place]?)).bind
    (fun placed => placed.2.get column)).getD .null

/-- The values of a window for the rows of a partition, with their places. -/
def Window.values (limits : ExecutionLimits) (window : Window)
    (rows : List PlacedRow) : Except KernelError (List (Nat × Value)) :=
  match window.function with
  | .rowNumber =>
      .ok (rows.zipIdx.map (fun entry =>
        (entry.1.1, .u64 (UInt64.ofNat (entry.2 + 1)))))
  | .rank => .ok (peerRanks false 0 0 (peerGroups rows window.order))
  | .denseRank => .ok (peerRanks true 0 0 (peerGroups rows window.order))
  | .over aggregate =>
      let start := Accumulators.withLimits [aggregate] limits
      if window.order.isEmpty then do
        let accumulators ← start.pushAll rows
        return shareValue accumulators.value rows
      else
        runningValues start (peerGroups rows window.order)
  | .lag column offset =>
      .ok (rows.zipIdx.map (fun entry =>
        (entry.1.1, valueAt rows column
          (if offset ≤ entry.2 then some (entry.2 - offset) else none))))
  | .lead column offset =>
      .ok (rows.zipIdx.map (fun entry =>
        (entry.1.1, valueAt rows column (some (entry.2 + offset)))))

/-- Put values in their places of one window. -/
def setCells (slot : Nat) (cells : List (Nat × Value))
    (computed : List (List Value)) : List (List Value) :=
  cells.foldl (fun computed cell =>
    computed.modify cell.1 (fun values => values.set slot cell.2)) computed

/-- Windows over the same partitions in the same order are computed together. -/
def addSpec (window : Window) (slot : Nat) :
    List (Window × List Nat) → List (Window × List Nat)
  | [] => [(window, [slot])]
  | (spec, slots) :: rest =>
      if spec.partition = window.partition ∧ spec.order = window.order then
        (spec, slots ++ [slot]) :: rest
      else
        (spec, slots) :: addSpec window slot rest

def windowSpecs (windows : List Window) : List (Window × List Nat) :=
  windows.zipIdx.foldl (fun specs entry => addSpec entry.1 entry.2 specs) []

/-- The partitions of some rows, each in the order of a window. -/
def Window.partitions (window : Window) (rows : List Row) : List (List PlacedRow) :=
  let partitionKeys := window.partition.map SortKey.asc
  let sorted := (rows.zipIdx.map Prod.swap).mergeSort (fun left right =>
    compareRows left.2 right.2 (partitionKeys ++ window.order) ≠ .gt)
  peerGroups sorted partitionKeys

/-- Compute the window of a slot over one partition. -/
def fillSlot (windows : List Window) (limits : ExecutionLimits)
    (rows : List PlacedRow) (computed : List (List Value)) (slot : Nat) :
    Except KernelError (List (List Value)) :=
  match windows[slot]? with
  | none => .ok computed
  | some window => do
      let cells ← window.values limits rows
      return setCells slot cells computed

/-- Compute the windows that share a specification. -/
def fillSpec (windows : List Window) (rows : List Row)
    (limits : ExecutionLimits) (computed : List (List Value))
    (spec : Window × List Nat) : Except KernelError (List (List Value)) :=
  (spec.1.partitions rows).foldlM (fun computed rows =>
    spec.2.foldlM (fillSlot windows limits rows) computed) computed

/-- Append the value of each window to every row. -/
def evaluateWindows (windows : List Window) (rows : List Row)
    (limits : ExecutionLimits) : Except KernelError (List Row) :=
  if windows.isEmpty then
    .ok rows
  else do
    let computed ← (windowSpecs windows).foldlM (fillSpec windows rows limits)
      (List.replicate rows.length (List.replicate windows.length .null))
    return (rows.zip computed).map (fun entry => ⟨entry.1.values ++ entry.2⟩)

/-! ## Widened rows -/

/-- A value for each window, for each row. -/
def IsComputed (rows width : Nat) (computed : List (List Value)) : Prop :=
  computed.length = rows ∧ ∀ values ∈ computed, values.length = width

theorem isComputed_setCells
    {rows width : Nat} {computed : List (List Value)}
    (isComputed : IsComputed rows width computed) (slot : Nat)
    (cells : List (Nat × Value)) :
    IsComputed rows width (setCells slot cells computed) := by
  rw [setCells]
  induction cells generalizing computed with
  | nil => exact isComputed
  | cons cell rest ih =>
      refine ih ⟨?_, fun values member => ?_⟩
      · rw [length_modify]
        exact isComputed.1
      · rw [mem_iff_getElem?] at member
        obtain ⟨place, found⟩ := member
        rw [getElem?_modify] at found
        obtain ⟨old, isOld, rfl⟩ := Option.map_eq_some_iff.mp found
        have wide := isComputed.2 old (mem_of_getElem? isOld)
        split
        · rwa [length_set]
        · exact wide

variable {limits : ExecutionLimits} {computed next : List (List Value)}
  {windows : List Window}

theorem isComputed_fillSlot
    {partition : List PlacedRow} {rows width slot : Nat}
    (isComputed : IsComputed rows width computed)
    (filled : fillSlot windows limits partition computed slot = .ok next) :
    IsComputed rows width next := by
  rw [fillSlot] at filled
  split at filled
  · cases filled
    exact isComputed
  · obtain ⟨cells, _, isNext⟩ := bind_eq_ok.mp filled
    cases isNext
    exact isComputed_setCells isComputed slot cells

theorem isComputed_fillSpec
    {placed : List Row} {rows width : Nat} {spec : Window × List Nat}
    (isComputed : IsComputed rows width computed)
    (filled : fillSpec windows placed limits computed spec = .ok next) :
    IsComputed rows width next := by
  refine foldlM_keeps (fun partition _ state later held folded => ?_) isComputed filled
  exact foldlM_keeps (fun slot _ state later held stepped =>
    isComputed_fillSlot held stepped) held folded

theorem isComputed_start
    (rows width : Nat) :
    IsComputed rows width (replicate rows (replicate width Value.null)) := by
  refine ⟨length_replicate, fun values member => ?_⟩
  rw [eq_of_mem_replicate member, length_replicate]

theorem forall₂_evaluateWindows
    {rows widened : List Row}
    (evaluated : evaluateWindows windows rows limits = .ok widened) :
    List.Forall₂ (fun row wide => ∃ extra : List Value,
      extra.length = windows.length ∧ wide = ⟨row.values ++ extra⟩) rows widened := by
  rw [evaluateWindows] at evaluated
  split at evaluated
  · next none_ =>
      cases evaluated
      rw [forall₂_same]
      refine fun row _ => ⟨[], ?_, by rw [append_nil]⟩
      rw [isEmpty_iff.mp none_]
      rfl
  · obtain ⟨computed, folded, isWide⟩ := bind_eq_ok.mp evaluated
    cases isWide
    obtain ⟨sameLength, width⟩ := foldlM_keeps
      (fun spec _ state next held filled => isComputed_fillSpec held filled)
      (isComputed_start rows.length windows.length) folded
    rw [forall₂_map_right_iff, forall₂_iff_get]
    refine ⟨?_, fun place inside inside' => ?_⟩
    · rw [length_zip, sameLength, Nat.min_self]
    · refine ⟨computed[place], width _ (getElem_mem _), ?_⟩
      simp

end SlateOrm
