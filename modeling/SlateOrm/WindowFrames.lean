import SlateOrm.SortedRuns
import SlateOrm.TopRows
import SlateOrm.Windows

namespace SlateOrm

open List

/-!
# What windows compute

A window sees the rows of a row's partition in its own order, and what it
computes of the row is said by that list and the row's place in it.  The
partitions that are cut out of one sort of all rows are those lists, each row
is in one of them, and what is computed there is put where the row is.
-/

/-- Rows with the places they came in. -/
def placedRows (rows : List Row) : List PlacedRow := rows.zipIdx.map Prod.swap

/-- Two rows agree on the columns of a partition. -/
def Window.together (window : Window) (first second : Row) : Bool :=
  compareRows first second (window.partition.map SortKey.asc) == .eq

/-- The rows of a row's partition, in the order of the window. -/
def Window.frame (window : Window) (rows : List Row) (row : Row) : List PlacedRow :=
  ((placedRows rows).filter (fun placed =>
    window.together placed.2 row)).mergeSort (fun first second =>
      compareRows first.2 second.2 window.order ≠ .gt)

theorem Window.perm_frame
    (window : Window) (rows : List Row) (row : Row) :
    (window.frame rows row).Perm ((placedRows rows).filter (fun placed =>
      window.together placed.2 row)) :=
  mergeSort_perm _ _

theorem Window.mem_placedRows_of_mem_frame
    {window : Window} {rows : List Row} {row : Row} {placed : PlacedRow}
    (isIn : placed ∈ window.frame rows row) :
    placed ∈ placedRows rows :=
  (mem_filter.mp ((window.perm_frame rows row).subset isIn)).1

theorem Window.partitions_congr
    {first second : Window}
    (samePartition : first.partition = second.partition)
    (sameOrder : first.order = second.order)
    (rows : List Row) :
    first.partitions rows = second.partitions rows := by
  rw [Window.partitions, Window.partitions, samePartition, sameOrder]

/-! ## Placed rows -/

theorem mem_placedRows
    {rows : List Row} {placed : PlacedRow} :
    placed ∈ placedRows rows ↔ rows[placed.1]? = some placed.2 := by
  obtain ⟨place, row⟩ := placed
  rw [placedRows, mem_map]
  constructor
  · rintro ⟨⟨found, at_⟩, member, same⟩
    cases same
    exact mem_zipIdx_iff_getElem?.mp member
  · intro found
    exact ⟨(row, place), mem_zipIdx_iff_getElem?.mpr found, rfl⟩

theorem pairwise_placedRows
    (rows : List Row) :
    (placedRows rows).Pairwise (fun first second => first.1 < second.1) := by
  rw [placedRows, pairwise_map, pairwise_iff_getElem]
  intro place place' inside inside' before
  simpa using before

/-! ## Orders of rows of one width -/

theorem compareRows_append
    {first second : Row}
    (sameWidth : first.values.length = second.values.length)
    (keys others : List SortKey) :
    compareRows first second (keys ++ others) = (compareRows first second keys).then
        (compareRows first second others) := by
  induction keys with
  | nil => rfl
  | cons key rest ih =>
      rw [cons_append, compareRows_cons sameWidth,
        compareRows_cons sameWidth, ih, Ordering.then_assoc]

section

variable
  {rows : List Row}
  {width : Nat}
  (sameWidth : ∀ row ∈ rows, row.values.length = width)

include sameWidth

theorem width_of_mem_placedRows
    {placed : PlacedRow}
    (member : placed ∈ placedRows rows) :
    placed.2.values.length = width :=
  sameWidth _ (mem_of_getElem? (mem_placedRows.mp member))

/-- A partition is what a window sees of each of its rows. -/
theorem Window.eq_frame_of_mem_partitions
    {window : Window} {partition : List PlacedRow}
    (isPartition : partition ∈ window.partitions rows)
    {placed : PlacedRow}
    (isIn : placed ∈ partition) :
    partition = window.frame rows placed.2 := by
  obtain ⟨byKeys, _, isKeys⟩ := exists_transCmp_compareRows width
    (window.partition.map SortKey.asc)
  obtain ⟨byOrder, _, isOrder⟩ := exists_transCmp_compareRows width window.order
  have wide : ∀ other ∈ placedRows rows, other.2.values.length = width :=
    fun other => width_of_mem_placedRows sameWidth
  have sorts : (placedRows rows).mergeSort (fun first second =>
      compareRows first.2 second.2
        (window.partition.map SortKey.asc ++ window.order) ≠ .gt) =
      (placedRows rows).mergeSort (fun first second =>
        (compareLex byKeys byOrder first.2 second.2).isLE) := by
    refine mergeSort_congr fun first isFirst second isSecond => ?_
    have first_ := wide first isFirst
    have second_ := wide second isSecond
    rw [compareRows_append (first_.trans second_.symm), compareLex,
      isKeys _ _ first_ second_, isOrder _ _ first_ second_]
    cases (byKeys first.2 second.2).then (byOrder first.2 second.2) <;> rfl
  have same := mergeSort_perm (placedRows rows) (fun first second =>
    (compareLex byKeys byOrder first.2 second.2).isLE)
  have cuts : window.partitions rows = ((placedRows rows).mergeSort (fun first second =>
        (compareLex byKeys byOrder first.2 second.2).isLE)).splitBy
          (fun first second => byKeys first.2 second.2 == .eq) := by
    change peerGroups ((placedRows rows).mergeSort _) _ = _
    rw [sorts, peerGroups]
    refine splitBy_congr fun first isFirst second isSecond => ?_
    rw [isKeys _ _ (wide _ (same.subset isFirst)) (wide _ (same.subset isSecond))]
  rw [cuts] at isPartition
  have isPlaced : placed ∈ placedRows rows := by
    have inRuns := mem_flatten.mpr ⟨partition, isPartition, isIn⟩
    rw [flatten_splitBy] at inRuns
    exact same.subset inRuns
  have isGroup := eq_mergeSort_of_mem_splitBy (pairwise_placedRows rows)
    isPartition isIn
  rw [isGroup, Window.frame]
  have filters : (placedRows rows).filter (fun other =>
      window.together other.2 placed.2) =
      (placedRows rows).filter (fun other =>
        byKeys other.2 placed.2 == .eq) := by
    refine filter_congr fun other isOther => ?_
    rw [Window.together, isKeys _ _ (wide _ isOther) (wide _ isPlaced)]
  rw [filters]
  refine mergeSort_congr fun first isFirst second isSecond => ?_
  rw [isOrder _ _ (wide _ (mem_filter.mp isFirst).1)
    (wide _ (mem_filter.mp isSecond).1)]
  cases byOrder first.2 second.2 <;> rfl

omit sameWidth in
theorem Window.exists_partition
    (window : Window) {placed : PlacedRow}
    (isPlaced : placed ∈ placedRows rows) :
    ∃ partition ∈ window.partitions rows, placed ∈ partition := by
  have whole : placed ∈ (window.partitions rows).flatten := by
    rw [Window.partitions, peerGroups, flatten_splitBy]
    exact (mergeSort_perm _ _).mem_iff.mpr isPlaced
  obtain ⟨partition, isPartition, isIn⟩ := mem_flatten.mp whole
  exact ⟨partition, isPartition, isIn⟩

theorem Window.mem_frame
    (window : Window) {placed : PlacedRow}
    (isPlaced : placed ∈ placedRows rows) :
    placed ∈ window.frame rows placed.2 := by
  obtain ⟨partition, isPartition, isIn⟩ := window.exists_partition isPlaced
  rwa [← window.eq_frame_of_mem_partitions sameWidth isPartition isIn]

theorem Window.pairwise_frame
    (window : Window) (row : Row) :
    (window.frame rows row).Pairwise (fun first second =>
      compareRows first.2 second.2 window.order = .lt ∨
        (compareRows first.2 second.2 window.order = .eq ∧ first.1 < second.1)) := by
  obtain ⟨byOrder, _, isOrder⟩ := exists_transCmp_compareRows width window.order
  have wide : ∀ other ∈ (placedRows rows).filter (fun placed =>
      window.together placed.2 row), other.2.values.length = width :=
    fun other member => width_of_mem_placedRows sameWidth (mem_filter.mp member).1
  have isFrame : window.frame rows row = ((placedRows rows).filter (fun placed =>
        window.together placed.2 row)).mergeSort (fun first second =>
          (byOrder first.2 second.2).isLE) := by
    refine mergeSort_congr fun first isFirst second isSecond => ?_
    rw [isOrder _ _ (wide _ isFirst) (wide _ isSecond)]
    cases byOrder first.2 second.2 <;> rfl
  have sorted := @pairwise_precedes_mergeSort _ byOrder _ _
    ((pairwise_placedRows rows).filter (fun placed => window.together placed.2 row))
  rw [← isFrame] at sorted
  have same := mergeSort_perm ((placedRows rows).filter (fun placed =>
    window.together placed.2 row)) (fun first second =>
      compareRows first.2 second.2 window.order ≠ .gt)
  refine sorted.imp_of_mem fun isFirst isSecond before => ?_
  rw [isOrder _ _ (wide _ (same.subset isFirst)) (wide _ (same.subset isSecond))]
  exact before

end

end SlateOrm
