import SlateOrm.BoundedHeap
import SlateOrm.SortedWalks

namespace SlateOrm

open List

/-!
# Windows of reads

A query may skip some of its rows and take a number of those that follow.  A
sort that is followed by a limit keeps no more rows than are returned; one
without a limit holds every row, and is refused if there are too many.
-/

/-! ## Windows -/

/-- How many rows a reader skips, and how many it takes at most. -/
structure RowWindow where
  limit : Option Nat := none
  offset : Nat := 0

section

variable {α β : Type}

/-- The part of a list that a window shows. -/
def RowWindow.of (window : RowWindow) (items : List α) : List α :=
  match window.limit with
  | none => items.drop window.offset
  | some limit => (items.drop window.offset).take limit

theorem RowWindow.of_map
    (window : RowWindow) (change : α → β) (items : List α) :
    window.of (items.map change) = (window.of items).map change := by
  rw [of, of]
  cases window.limit with
  | none => exact map_drop.symm
  | some limit =>
      dsimp only
      rw [map_take, map_drop]

/-- A window shows a place of the list that it is a part of. -/
def RowWindow.Shows (window : RowWindow) (place : Nat) : Prop := window.offset ≤ place ∧
    ∀ limit, window.limit = some limit → place < window.offset + limit

namespace Cursor

/-- Pass some results over. -/
def skip : Nat → Cursor α → Cursor α
  | 0, cursor => cursor
  | _ + 1, .exhausted => .exhausted
  | _ + 1, .failed error => .failed error
  | count + 1, .yields _ rest => skip count rest

/-- Stop after some results, whatever would come then. -/
def stopAfter : Nat → Cursor α → Cursor α
  | 0, _ => .exhausted
  | _ + 1, .exhausted => .exhausted
  | _ + 1, .failed error => .failed error
  | count + 1, .yields item rest => .yields item (stopAfter count rest)

/-- Skip what is before a window, and stop after it. -/
def withWindow (window : RowWindow) (cursor : Cursor α) : Cursor α :=
  match window.limit with
  | none => cursor.skip window.offset
  | some limit => (cursor.skip window.offset).stopAfter limit

section

variable
  {cursor : Cursor α}
  {items : List α}
  (collected : cursor.collect = .ok items)

include collected

end

end Cursor

end

/-! ## Opened plans -/

/-- A sum of two words, as large as a word gets at most. -/
def usizeSaturatingAdd (first second : Nat) : Nat := min (first + second) (2 ^ 64 - 1)

/-- The rows of a cursor in a requested order, as far as a window shows them. -/
def sortRows (heap : BinaryHeap) (limits : ExecutionLimits)
    (window : RowWindow) (keys : List SortKey) (rows : Cursor Row) :
    Except KernelError (List Row) :=
  match window.limit with
  | some limit =>
      let kept := usizeSaturatingAdd limit window.offset
      if 0 < kept then do
        let rows ← rows.collect
        return heap.topN (fun left right => compareRows left right keys) kept rows
      else
        return []
  | none => do
      let rows ← rows.collectAtMost (.sortTooLarge limits.maxSortRows)
          limits.maxSortRows
      return rows.mergeSort (fun left right => compareRows left right keys ≠ .gt)

section

variable [Platform]

/-- Carry out a plan as far as a window shows its rows. -/
def openWindowed (heap : BinaryHeap) (limits : ExecutionLimits)
    (snapshot : Snapshot) (table : TableDef) (plan : Plan) (query : Query)
    (window : RowWindow) : Except KernelError (Cursor Row) :=
  let widest := query.filter.widestInList
  if limits.maxInValues < widest then
    .error (.inListTooLarge limits.maxInValues widest)
  else
    let shape := rowShape table plan query.compute
    let rows := source snapshot shape plan.order plan.access
    let shown (rows : Cursor Row) :=
      (rows.withWindow window).map (fun row => conceal row plan.concealed)
    match plan.sort with
    | none => .ok (shown rows)
    | some keys => do
        let sorted ← sortRows heap limits window keys rows
        return shown (Cursor.ofList (fun row => .ok (some row)) sorted)

/-- The rows in the order of a sort, those with equal keys as they come. -/
def sortedRows (keys : List SortKey) (rows : List Row) : List Row :=
  rows.mergeSort (fun left right => compareRows left right keys ≠ .gt)

/-- What is returned of the rows that a path yields. -/
def served (heap : BinaryHeap) (limits : ExecutionLimits)
    (window : RowWindow) (sort : Option (List SortKey)) (rows : List Row) :
    Except KernelError (List Row) :=
  match sort with
  | none => .ok (window.of rows)
  | some keys =>
      match window.limit with
      | some limit =>
          .ok (window.of (heap.topN (fun left right => compareRows left right keys)
              (usizeSaturatingAdd limit window.offset) rows))
      | none =>
          if rows.length ≤ limits.maxSortRows then
            .ok (window.of (rows.mergeSort
              (fun left right => compareRows left right keys ≠ .gt)))
          else
            .error (.sortTooLarge limits.maxSortRows)

end

/-! ## Equal rows -/

theorem orderedOn_compareRows
    (width : Nat) (sort : List SortKey) :
    OrderedOn (fun left right => compareRows left right sort)
      (fun row => row.values.length = width) := by
  obtain ⟨cmp, isTrans, isCmp⟩ := exists_transCmp_compareRows width sort
  constructor
  · intro first second isWidth isWidth'
    rw [isCmp second first isWidth' isWidth, isCmp first second isWidth isWidth']
    exact isTrans.eq_swap
  · intro first second third isWidth isWidth' isWidth'' less less'
    rw [isCmp first second isWidth isWidth'] at less
    rw [isCmp second third isWidth' isWidth''] at less'
    rw [isCmp first third isWidth isWidth'']
    exact Ordering.ne_gt_iff_isLE.mpr (isTrans.isLE_trans
      (Ordering.ne_gt_iff_isLE.mp less) (Ordering.ne_gt_iff_isLE.mp less'))

section

variable
  {heap : BinaryHeap}
  (lawful : heap.Lawful)
  (limits : ExecutionLimits)
  (window : RowWindow)

include lawful limits window

end

end SlateOrm
