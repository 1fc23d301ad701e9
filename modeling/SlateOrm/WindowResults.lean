import SlateOrm.WindowValues

namespace SlateOrm

open List

/-!
# What windows add to rows

Windows of one specification share the partitions, and every window has its
slot in each row.  A value that is put in a slot is what the window of the slot
computes of the row, and each row is in a partition, so in the end every slot
of every row holds what its window computes.
-/

/-! ## Cells -/

/-- What is computed for a row and a slot. -/
def cellAt (computed : List (List Value)) (place slot : Nat) : Option Value :=
  computed[place]?.bind (fun values => values[slot]?)

theorem cellAt_modify
    (computed : List (List Value)) (slot : Nat) (cell : Nat × Value)
    (place slot' : Nat) :
    cellAt (computed.modify cell.1 (fun values => values.set slot cell.2)) place slot' =
      if cell.1 = place ∧ slot = slot' then
        (cellAt computed place slot').map (fun _ => cell.2)
      else
        cellAt computed place slot' := by
  simp only [cellAt, getElem?_modify]
  by_cases samePlace : cell.1 = place
  · by_cases sameSlot : slot = slot'
    · subst samePlace sameSlot
      cases computed[cell.1]? <;> simp [getElem?_set']
      rfl
    · cases computed[place]? <;> simp [samePlace, sameSlot]
  · cases computed[place]? <;> simp [samePlace]

variable {computed : List (List Value)} {partition : List Ordinal}

theorem cellAt_setCells
    (slot : Nat) (cells : List (Nat × Value)) {place slot' : Nat} {old : Value}
    (isOld : cellAt computed place slot' = some old) :
    ∃ value, cellAt (setCells slot cells computed) place slot' = some value ∧
      (value = old ∧ (slot = slot' → ∀ cell ∈ cells, cell.1 ≠ place) ∨
        (slot = slot' ∧ (place, value) ∈ cells)) := by
  rw [setCells]
  induction cells generalizing computed old with
  | nil => exact ⟨old, isOld, Or.inl ⟨rfl, by simp⟩⟩
  | cons cell rest ih =>
      have written := cellAt_modify computed slot cell place slot'
      rw [isOld] at written
      rw [foldl_cons]
      by_cases here : cell.1 = place ∧ slot = slot'
      · rw [if_pos here] at written
        obtain ⟨value, found, isValue⟩ := ih written
        refine ⟨value, found, Or.inr ⟨here.2, ?_⟩⟩
        rcases isValue with ⟨rfl, _⟩ | ⟨_, member⟩
        · exact mem_cons.mpr (Or.inl (Prod.ext here.1.symm rfl))
        · exact mem_cons_of_mem _ member
      · rw [if_neg here] at written
        obtain ⟨value, found, isValue⟩ := ih written
        refine ⟨value, found, ?_⟩
        rcases isValue with ⟨rfl, others⟩ | ⟨sameSlot, member⟩
        · refine Or.inl ⟨rfl, fun sameSlot => forall_mem_cons.mpr
            ⟨fun samePlace => here ⟨samePlace, sameSlot⟩, others sameSlot⟩⟩
        · exact Or.inr ⟨sameSlot, mem_cons_of_mem _ member⟩

/-! ## Specifications -/

theorem exists_mem_addSpec_iff
    {window : Window} {slot slot' : Nat} {specs : List (Window × List Nat)}
    {order : List SortKey} :
    (∃ spec ∈ addSpec window slot specs, slot' ∈ spec.2 ∧
        spec.1.partition = partition ∧ spec.1.order = order) ↔
      (∃ spec ∈ specs, slot' ∈ spec.2 ∧ spec.1.partition = partition ∧
        spec.1.order = order) ∨
      (slot' = slot ∧ window.partition = partition ∧ window.order = order) := by
  induction specs with
  | nil => simp [addSpec]
  | cons spec rest ih =>
      rw [addSpec]
      split
      · next alike =>
          simp only [exists_mem_cons_iff, mem_append,
            mem_singleton, alike.1, alike.2, or_and_right]
          exact or_right_comm
      · simp only [exists_mem_cons_iff, ih, or_assoc]

/-- Every slot is in one specification, that of the window it is for. -/
theorem exists_mem_windowSpecs_iff
    {windows : List Window} {slot : Nat} {order : List SortKey} :
    (∃ spec ∈ windowSpecs windows, slot ∈ spec.2 ∧
        spec.1.partition = partition ∧ spec.1.order = order) ↔
      ∃ window, windows[slot]? = some window ∧
        window.partition = partition ∧ window.order = order := by
  have added : ∀ (entries : List (Window × Nat)) (specs : List (Window × List Nat)),
      (∃ spec ∈ entries.foldl (fun specs entry => addSpec entry.1 entry.2 specs) specs,
        slot ∈ spec.2 ∧ spec.1.partition = partition ∧ spec.1.order = order) ↔
        (∃ spec ∈ specs, slot ∈ spec.2 ∧ spec.1.partition = partition ∧
          spec.1.order = order) ∨
        ∃ entry ∈ entries, slot = entry.2 ∧
          entry.1.partition = partition ∧ entry.1.order = order := by
    intro entries
    induction entries with
    | nil => simp
    | cons entry rest ih =>
        intro specs
        rw [foldl_cons, ih, exists_mem_addSpec_iff, or_assoc, exists_mem_cons_iff]
  rw [windowSpecs, added]
  constructor
  · rintro (⟨_, ⟨⟩, _⟩ | ⟨⟨window, place⟩, member, rfl, alike⟩)
    exact ⟨window, mem_zipIdx_iff_getElem?.mp member, alike⟩
  · rintro ⟨window, found, alike⟩
    exact Or.inr ⟨(window, slot), mem_zipIdx_iff_getElem?.mpr found, rfl, alike⟩

/-! ## Filled slots -/

theorem IsComputed.exists_cellAt
    {rows width place slot : Nat} (isComputed : IsComputed rows width computed)
    (isRow : place < rows)
    (isSlot : slot < width) :
    ∃ value, cellAt computed place slot = some value := by
  obtain ⟨sameLength, wide⟩ := isComputed
  have inside : place < computed.length := sameLength ▸ isRow
  have inside' : slot < computed[place].length :=
    (wide _ (getElem_mem inside)).symm ▸ isSlot
  refine ⟨computed[place][slot], ?_⟩
  rw [cellAt, getElem?_eq_getElem inside, Option.bind_some, getElem?_eq_getElem inside']

/-- A value is what a window computes of the row in a place. -/
def Window.Gives (window : Window) (limits : ExecutionLimits)
    (rows : List Row) (place : Nat) (value : Value) : Prop :=
  ∀ row, rows[place]? = some row →
    ∃ position, (window.frame rows row)[position]? = some (place, row) ∧
      window.Computes limits (window.frame rows row) position row value

/-- A cell holds what the window of its slot computes of its row. -/
def Filled (windows : List Window) (limits : ExecutionLimits)
    (rows : List Row) (place slot : Nat) (computed : List (List Value)) :
    Prop :=
  ∃ value, cellAt computed place slot = some value ∧
    ∀ window, windows[slot]? = some window → window.Gives limits rows place value

section

variable
  {windows : List Window}
  {limits : ExecutionLimits}
  {rows : List Row}
  {width : Nat}
  (sameWidth : ∀ row ∈ rows, row.values.length = width)

include sameWidth

variable {window : Window} {partition : List PlacedRow} {slot : Nat}

/-- The values of a partition are given by its window. -/
theorem Window.gives_of_mem_values
    (isPartition : partition ∈ window.partitions rows)
    {cells : List (Nat × Value)}
    (computed : window.values limits partition = .ok cells) :
    (∀ cell ∈ cells, window.Gives limits rows cell.1 cell.2) ∧
      ∀ placed ∈ partition, ∃ cell ∈ cells, cell.1 = placed.1 := by
  have isFrame : ∀ placed ∈ partition, partition = window.frame rows placed.2 :=
    fun placed => window.eq_frame_of_mem_partitions sameWidth isPartition
  have isPlaced : ∀ placed ∈ partition, placed ∈ placedRows rows := by
    intro placed isIn
    rw [isFrame placed isIn] at isIn
    exact Window.mem_placedRows_of_mem_frame isIn
  have sorted : partition.Pairwise (fun first second =>
      (compareRows first.2 second.2 window.order).isLE = true) := by
    rcases partition.eq_nil_or_concat with rfl | ⟨others, last, isLast⟩
    · exact List.Pairwise.nil
    · rw [isFrame last (by simp [isLast])]
      refine (window.pairwise_frame sameWidth last.2).imp ?_
      rintro first second (less | ⟨equal, _⟩)
      · rw [less]
        rfl
      · rw [equal]
        rfl
  obtain ⟨sameLength, each⟩ := Window.cellsOf_values
    (fun placed isIn => width_of_mem_placedRows sameWidth
      (isPlaced placed isIn)) sorted computed
  refine ⟨fun cell member row isRow => ?_, fun placed isIn => ?_⟩
  · obtain ⟨position, inside, isCell⟩ := getElem_of_mem member
    have found : partition[position]? = some partition[position] :=
      getElem?_eq_getElem (sameLength ▸ inside)
    have isIn := mem_of_getElem? found
    obtain ⟨value, hasValue, computes⟩ := each position _ found
    rw [getElem?_eq_getElem inside, isCell, Option.some.injEq] at hasValue
    subst hasValue
    have atPlace := mem_placedRows.mp (isPlaced _ isIn)
    obtain rfl := Option.some.inj (atPlace.symm.trans isRow)
    rw [← isFrame _ isIn]
    exact ⟨position, found, computes⟩
  · obtain ⟨position, inside, isCell⟩ := getElem_of_mem isIn
    obtain ⟨value, found, _⟩ := each position placed
      (isCell ▸ getElem?_eq_getElem inside)
    exact ⟨_, mem_of_getElem? found, rfl⟩

/-- Computing a window over a partition leaves what is filled, and fills the
slot of the window in the rows of the partition. -/
theorem filled_fillSlot
    (isWindow : windows[slot]? = some window)
    (isPartition : partition ∈ window.partitions rows)
    {computed next : List (List Value)}
    (isComputed : IsComputed rows.length windows.length computed)
    (filled : fillSlot windows limits partition computed slot = .ok next) :
    (∀ place slot', Filled windows limits rows place slot' computed →
      Filled windows limits rows place slot' next) ∧
      ∀ placed ∈ partition, Filled windows limits rows placed.1 slot next := by
  rw [fillSlot, isWindow] at filled
  obtain ⟨cells, isCells, isNext⟩ := bind_eq_ok.mp filled
  cases isNext
  obtain ⟨gives, covers⟩ := Window.gives_of_mem_values sameWidth isPartition isCells
  constructor
  · rintro place slot' ⟨old, isOld, oldGiven⟩
    obtain ⟨value, found, ⟨rfl, _⟩ | ⟨rfl, member⟩⟩ := cellAt_setCells slot cells isOld
    · exact ⟨value, found, oldGiven⟩
    · refine ⟨value, found, fun window' isWindow' => ?_⟩
      obtain rfl := Option.some.inj (isWindow.symm.trans isWindow')
      exact gives _ member
  · intro placed isIn
    obtain ⟨cell, isCell, samePlace⟩ := covers placed isIn
    have isRow : placed.1 < rows.length := by
      rw [window.eq_frame_of_mem_partitions sameWidth isPartition isIn] at isIn
      exact (List.getElem?_eq_some_iff.mp (mem_placedRows.mp
        (Window.mem_placedRows_of_mem_frame isIn))).1
    obtain ⟨old, isOld⟩ := isComputed.exists_cellAt isRow
      (List.getElem?_eq_some_iff.mp isWindow).1
    obtain ⟨value, found, ⟨rfl, nowhere⟩ | ⟨_, member⟩⟩ :=
      cellAt_setCells slot cells isOld
    · exact absurd samePlace (nowhere rfl cell isCell)
    · refine ⟨value, found, fun window' isWindow' => ?_⟩
      obtain rfl := Option.some.inj (isWindow.symm.trans isWindow')
      exact gives _ member

/-- All windows fill their slots in all rows. -/
theorem filled_of_folded
    {computed : List (List Value)}
    (folded : (windowSpecs windows).foldlM (fillSpec windows rows limits)
      (replicate rows.length (replicate windows.length .null)) = .ok computed)
    {placed : PlacedRow}
    (isPlaced : placed ∈ placedRows rows)
    (isWindow : windows[slot]? = some window) :
    Filled windows limits rows placed.1 slot computed := by
  -- What is in a specification is a window with its partitions.
  have isSlot : ∀ spec ∈ windowSpecs windows, ∀ slot' ∈ spec.2,
      ∃ window', windows[slot']? = some window' ∧
        window'.partitions rows = spec.1.partitions rows := by
    intro spec isSpec slot' isIn
    obtain ⟨window', isWindow', samePartition, sameOrder⟩ :=
      exists_mem_windowSpecs_iff.mp ⟨spec, isSpec, isIn, rfl, rfl⟩
    exact ⟨window', isWindow', Window.partitions_congr samePartition sameOrder rows⟩
  have slotKeeps : ∀ spec ∈ windowSpecs windows,
      ∀ partition ∈ spec.1.partitions rows, ∀ slot' ∈ spec.2,
        ∀ state next, IsComputed rows.length windows.length state →
          fillSlot windows limits partition state slot' = .ok next →
            IsComputed rows.length windows.length next ∧
              (Filled windows limits rows placed.1 slot state →
                Filled windows limits rows placed.1 slot next) := by
    intro spec isSpec partition isPartition slot' isIn state next held filled
    obtain ⟨window', isWindow', same⟩ := isSlot spec isSpec slot' isIn
    exact ⟨isComputed_fillSlot held filled, (filled_fillSlot sameWidth isWindow'
      (same ▸ isPartition) held filled).1 placed.1 slot⟩
  have slotsKeep : ∀ spec ∈ windowSpecs windows, ∀ partition ∈ spec.1.partitions rows,
        ∀ state next, IsComputed rows.length windows.length state →
          spec.2.foldlM (fillSlot windows limits partition) state = .ok next →
            IsComputed rows.length windows.length next ∧
              (Filled windows limits rows placed.1 slot state →
                Filled windows limits rows placed.1 slot next) := by
    intro spec isSpec partition isPartition state next held folded
    exact foldlM_carries (slotKeeps spec isSpec partition isPartition) held folded
  have specKeeps : ∀ spec ∈ windowSpecs windows,
      ∀ state next, IsComputed rows.length windows.length state →
        fillSpec windows rows limits state spec = .ok next →
          IsComputed rows.length windows.length next ∧
            (Filled windows limits rows placed.1 slot state →
              Filled windows limits rows placed.1 slot next) := by
    intro spec isSpec state next held folded
    exact foldlM_carries (slotsKeep spec isSpec) held folded
  obtain ⟨spec, isSpec, isIn, samePartition, sameOrder⟩ :=
    exists_mem_windowSpecs_iff.mpr ⟨window, isWindow, rfl, rfl⟩
  obtain ⟨partition, isPartition, inPartition⟩ := spec.1.exists_partition isPlaced
  refine foldlM_establishes specKeeps isSpec ?_
    (isComputed_start rows.length windows.length) folded
  intro state next held filled
  refine foldlM_establishes (slotsKeep spec isSpec) isPartition ?_ held filled
  intro state next held filled
  refine foldlM_establishes (slotKeeps spec isSpec partition isPartition) isIn
    ?_ held filled
  intro state next held filled
  obtain ⟨window', isWindow', same⟩ := isSlot spec isSpec slot isIn
  exact (filled_fillSlot sameWidth isWindow' (same ▸ isPartition) held
    filled).2 placed inPartition

omit sameWidth in
theorem exists_fillSlot_iff
    (isWindow : windows[slot]? = some window)
    (partition : List PlacedRow) (computed : List (List Value)) :
    (∃ next, fillSlot windows limits partition computed slot = .ok next) ↔
      ∀ aggregate, window.function = .over aggregate → ∃ accumulators : Accumulators,
          (Accumulators.withLimits [aggregate] limits).pushAll partition =
            .ok accumulators := by
  rw [← window.exists_values_iff limits partition, fillSlot, isWindow]
  constructor
  · rintro ⟨next, filled⟩
    obtain ⟨cells, isCells, _⟩ := bind_eq_ok.mp filled
    exact ⟨cells, isCells⟩
  · rintro ⟨cells, isCells⟩
    exact ⟨_, bind_eq_ok.mpr ⟨cells, isCells, rfl⟩⟩

/-- Rows are widened unless an aggregate refuses a row of a partition. -/
theorem exists_evaluateWindows_iff :
    (∃ widened, evaluateWindows windows rows limits = .ok widened) ↔
      ∀ window ∈ windows, ∀ aggregate, window.function = .over aggregate →
        ∀ row ∈ rows, ∃ accumulators : Accumulators,
          (Accumulators.withLimits [aggregate] limits).pushAll
            (window.frame rows row) = .ok accumulators := by
  have stepsOf : ∀ spec ∈ windowSpecs windows, ∀ computed,
      (∃ next, fillSpec windows rows limits computed spec = .ok next) ↔
        ∀ partition ∈ spec.1.partitions rows, ∀ slot ∈ spec.2,
          ∀ window, windows[slot]? = some window →
            ∀ aggregate, window.function = .over aggregate →
              ∃ accumulators : Accumulators,
                (Accumulators.withLimits [aggregate] limits).pushAll
                  partition = .ok accumulators := by
    intro spec isSpec
    refine exists_foldlM_of_steps fun partition _ => ?_
    refine exists_foldlM_of_steps fun slot isIn computed => ?_
    obtain ⟨window, isWindow, _⟩ :=
      exists_mem_windowSpecs_iff.mp ⟨spec, isSpec, isIn, rfl, rfl⟩
    rw [exists_fillSlot_iff isWindow, isWindow]
    simp only [Option.some.injEq, forall_eq']
  have evaluated : (∃ widened, evaluateWindows windows rows limits = .ok widened) ↔
        ∀ spec ∈ windowSpecs windows, ∀ partition ∈ spec.1.partitions rows,
          ∀ slot ∈ spec.2, ∀ window, windows[slot]? = some window →
            ∀ aggregate, window.function = .over aggregate →
              ∃ accumulators : Accumulators,
                (Accumulators.withLimits [aggregate] limits).pushAll
                  partition = .ok accumulators := by
    rw [← exists_foldlM_of_steps stepsOf (replicate rows.length
      (replicate windows.length .null)), evaluateWindows]
    split
    · next none_ =>
        rw [isEmpty_iff.mp none_]
        exact ⟨fun _ => ⟨_, rfl⟩, fun _ => ⟨_, rfl⟩⟩
    · constructor
      · rintro ⟨widened, isWidened⟩
        obtain ⟨computed, folded, _⟩ := bind_eq_ok.mp isWidened
        exact ⟨computed, folded⟩
      · rintro ⟨computed, folded⟩
        exact ⟨_, bind_eq_ok.mpr ⟨computed, folded, rfl⟩⟩
  rw [evaluated]
  constructor
  · intro accepted window isWindow aggregate isOver row isRow
    obtain ⟨slot, isSlot⟩ := mem_iff_getElem?.mp isWindow
    obtain ⟨place, isPlace⟩ := mem_iff_getElem?.mp isRow
    obtain ⟨spec, isSpec, isIn, samePartition, sameOrder⟩ :=
      exists_mem_windowSpecs_iff.mpr ⟨window, isSlot, rfl, rfl⟩
    obtain ⟨partition, isPartition, inPartition⟩ :=
      spec.1.exists_partition (@mem_placedRows rows (place, row) |>.mpr isPlace)
    have isFrame := window.eq_frame_of_mem_partitions sameWidth
      (Window.partitions_congr samePartition sameOrder rows ▸ isPartition)
      inPartition
    exact isFrame ▸ accepted spec isSpec partition isPartition slot isIn window
      isSlot aggregate isOver
  · intro accepted spec isSpec partition isPartition slot isIn window isSlot
      aggregate isOver
    obtain ⟨window', isSlot', samePartition, sameOrder⟩ :=
      exists_mem_windowSpecs_iff.mp ⟨spec, isSpec, isIn, rfl, rfl⟩
    obtain rfl := Option.some.inj (isSlot.symm.trans isSlot')
    rw [← Window.partitions_congr samePartition sameOrder] at isPartition
    obtain ⟨placed, others, isCons⟩ :=
      exists_cons_of_ne_nil (ne_nil_of_mem_splitBy isPartition)
    have inPartition : placed ∈ partition := isCons ▸ mem_cons_self
    have isFrame := window.eq_frame_of_mem_partitions sameWidth isPartition inPartition
    have isRow : placed.2 ∈ rows := by
      rw [isFrame] at inPartition
      exact mem_of_getElem? (mem_placedRows.mp
        (Window.mem_placedRows_of_mem_frame inPartition))
    rw [isFrame]
    exact accepted window (mem_of_getElem? isSlot) aggregate isOver placed.2 isRow

theorem Window.frame_eq_of_mem
    {row : Row}
    (isRow : row ∈ rows)
    {placed : PlacedRow}
    (isIn : placed ∈ window.frame rows row) :
    window.frame rows placed.2 = window.frame rows row := by
  obtain ⟨place, isPlace⟩ := mem_iff_getElem?.mp isRow
  obtain ⟨partition, isPartition, inPartition⟩ :=
    window.exists_partition (@mem_placedRows rows (place, row) |>.mpr isPlace)
  have isFrame := window.eq_frame_of_mem_partitions sameWidth isPartition inPartition
  rw [← isFrame] at isIn
  rw [← window.eq_frame_of_mem_partitions sameWidth isPartition isIn, isFrame]

end

theorem Window.nodup_frame
    (window : Window) (rows : List Row) (row : Row) :
    (window.frame rows row).Nodup := by
  rw [(window.perm_frame rows row).nodup_iff]
  refine List.Nodup.filter _ ((pairwise_placedRows rows).imp ?_)
  rintro first _ before rfl
  exact absurd before (Nat.lt_irrefl _)

/-- Windows keep the rows and their order, and add to each row what every
window computes of it in its partition; only an aggregate can refuse to. -/
theorem evaluateWindows_exact
    (rows : List Row) {width : Nat}
    (sameWidth : ∀ row ∈ rows, row.values.length = width)
    (windows : List Window) (limits : ExecutionLimits) :
    ((∃ widened, evaluateWindows windows rows limits = .ok widened) ↔
        ∀ window ∈ windows, ∀ aggregate, window.function = .over aggregate →
          ∀ row ∈ rows, ∃ accumulators : Accumulators,
            (Accumulators.withLimits [aggregate] limits).pushAll
              (window.frame rows row) = .ok accumulators) ∧
      (∀ window ∈ windows, ∀ placed ∈ placedRows rows,
        placed ∈ window.frame rows placed.2 ∧ (window.frame rows placed.2).Perm
            ((placedRows rows).filter (fun other => window.together other.2 placed.2)) ∧
          (window.frame rows placed.2).Pairwise (fun first second =>
            compareRows first.2 second.2 window.order = .lt ∨
              (compareRows first.2 second.2 window.order = .eq ∧ first.1 < second.1))) ∧
      ∀ widened, evaluateWindows windows rows limits = .ok widened →
        List.Forall₂ (fun row wide => ∃ extra : List Value,
          extra.length = windows.length ∧ wide = ⟨row.values ++ extra⟩) rows widened ∧
        ∀ slot window, windows[slot]? = some window → ∀ row ∈ rows,
          ∀ place placed, (window.frame rows row)[place]? = some placed →
            ∃ wide value, widened[placed.1]? = some wide ∧
              wide.values[width + slot]? = some value ∧
              window.Computes limits (window.frame rows row) place placed.2
                value := by
  refine ⟨exists_evaluateWindows_iff sameWidth, fun window _ placed isPlaced =>
    ⟨window.mem_frame sameWidth isPlaced, window.perm_frame rows placed.2,
      window.pairwise_frame sameWidth placed.2⟩, ?_⟩
  intro widened evaluated
  refine ⟨forall₂_evaluateWindows evaluated, ?_⟩
  intro slot window isWindow row isRow place placed found
  have isIn := mem_of_getElem? found
  have isPlaced := Window.mem_placedRows_of_mem_frame isIn
  have sameFrame := Window.frame_eq_of_mem sameWidth isRow isIn
  have some_ : ¬ windows.isEmpty := by
    rw [List.isEmpty_iff]
    rintro rfl
    cases isWindow
  rw [evaluateWindows, if_neg some_] at evaluated
  obtain ⟨computed, folded, isWide⟩ := bind_eq_ok.mp evaluated
  cases isWide
  obtain ⟨value, isValue, given⟩ := filled_of_folded sameWidth folded isPlaced isWindow
  have atPlace := mem_placedRows.mp isPlaced
  obtain ⟨position, isPosition, computes⟩ := given window isWindow placed.2 atPlace
  rw [sameFrame] at isPosition computes
  have samePosition : position = place := by
    obtain ⟨inside, isPlaced_⟩ := List.getElem?_eq_some_iff.mp isPosition
    obtain ⟨inside', isPlaced'⟩ := List.getElem?_eq_some_iff.mp found
    exact (window.nodup_frame rows row).getElem_inj_iff.mp
      (isPlaced_.trans isPlaced'.symm)
  subst samePosition
  obtain ⟨values, isValues, isCell⟩ := Option.bind_eq_some_iff.mp isValue
  have wide := sameWidth _ (mem_of_getElem? atPlace)
  have paired : (rows.zip computed)[placed.1]? = some (placed.2, values) :=
    getElem?_zip_eq_some.mpr ⟨atPlace, isValues⟩
  refine ⟨⟨placed.2.values ++ values⟩, value, ?_, ?_, computes⟩
  · rw [getElem?_map, paired]
    rfl
  · rw [getElem?_append_right (by omega), wide, Nat.add_sub_cancel_left]
    exact isCell

/-- Rows with a null and with equal values are ranked. -/
theorem evaluateWindows_exact_ranks :
    ∃ widened, evaluateWindows [⟨.rank, [], [SortKey.asc 0]⟩, ⟨.lag 0 5, [0], []⟩]
      [⟨[.u64 3]⟩, ⟨[.null]⟩, ⟨[.u64 3]⟩] {} = .ok widened := by
  have sameWidth : ∀ row ∈ [Row.mk [.u64 3], ⟨[.null]⟩, ⟨[.u64 3]⟩],
      row.values.length = 1 := by
    decide
  exact (evaluateWindows_exact _ sameWidth _ _).1.mpr (by simp)

end SlateOrm
