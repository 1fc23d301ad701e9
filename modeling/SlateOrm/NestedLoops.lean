import SlateOrm.HashJoins

namespace SlateOrm

open List

/-!
# Nested loops

A nested loop has several probes under way.  It returns what each left row is
joined to in the order of the left rows, and fails with the first probe that
does, as if it made one probe after the other.
-/

namespace Cursor

variable {α : Type}

/-- What a cursor has before it ends or fails. -/
def yielded : Cursor α → List α
  | .exhausted | .failed _ => []
  | .yields item rest => item :: rest.yielded

theorem error_of_yields
    {item : α} {rest : Cursor α} {error : KernelError}
    (failed : (Cursor.yields item rest).collect = .error error) :
    rest.collect = .error error := by
  rw [collect] at failed
  cases isRest : rest.collect with
  | error refusal =>
      rw [isRest] at failed
      exact failed
  | ok items =>
      rw [isRest] at failed
      cases failed

theorem exists_pull
    {cursor : Cursor α} {items : List α}
    (collected : cursor.collect = .ok items)
    (count : Nat) :
    ∃ rest, cursor.pull count = .ok (items.take count, rest) ∧
      rest.collect = .ok (items.drop count) := by
  induction count generalizing cursor items with
  | zero => exact ⟨cursor, rfl, collected⟩
  | succ count ih =>
      cases cursor with
      | exhausted =>
          cases collected
          exact ⟨.exhausted, rfl, rfl⟩
      | failed error => cases collected
      | yields item rest =>
          obtain ⟨others, isRest, isItems⟩ := bind_eq_ok.mp collected
          cases isItems
          obtain ⟨after, pulled, isAfter⟩ := ih isRest
          refine ⟨after, ?_, isAfter⟩
          rw [pull, pulled]
          rfl

theorem pull_of_error
    {cursor : Cursor α} {error : KernelError}
    (failed : cursor.collect = .error error)
    (count : Nat) :
    cursor.pull count = .error error ∨ ∃ items rest,
      cursor.pull count = .ok (items, rest) ∧ items.length = count ∧
        items ++ rest.yielded = cursor.yielded ∧ rest.collect = .error error := by
  induction count generalizing cursor with
  | zero => exact .inr ⟨[], cursor, rfl, rfl, rfl, failed⟩
  | succ count ih =>
      cases cursor with
      | exhausted => cases failed
      | failed refusal =>
          cases failed
          exact .inl rfl
      | yields item rest =>
          rw [pull]
          rcases ih (error_of_yields failed) with
            refused | ⟨items, after, pulled, isLength, areYielded, isAfter⟩
          · rw [refused]
            exact .inl rfl
          · rw [pulled]
            exact .inr ⟨item :: items, after, rfl, congrArg (· + 1) isLength,
              congrArg (item :: ·) areYielded, isAfter⟩

/-- What was made ahead comes before what a cursor has, unless it failed. -/
theorem collect_prependOr
    (items : Except KernelError (List α)) (rest : Cursor α) :
    (Cursor.prependOr items rest).collect = (do
      let items ← items
      let others ← rest.collect
      return items ++ others) := by
  cases items with
  | error error => rfl
  | ok items =>
      change (Cursor.prepend items rest).collect = _
      rw [collect_prepend]
      cases rest.collect <;> rfl

end Cursor

/-- What rows are joined to, one after the other. -/
def probeEach (probe : Row → Except KernelError (List JoinedRow))
    (lefts : List Row) : Except KernelError (List JoinedRow) := do
  let joined ← lefts.mapM probe
  return joined.flatten

theorem probeEach_cons
    (probe : Row → Except KernelError (List JoinedRow)) (left : Row)
    (rest : List Row) :
    probeEach probe (left :: rest) = (do
      let shown ← probe left
      let others ← probeEach probe rest
      return shown ++ others) := by
  rw [probeEach, mapM_cons, probeEach]
  cases probe left with
  | error error => rfl
  | ok shown => cases rest.mapM probe <;> simp

/-- Probes that are under way give what they would one after the other. -/
theorem collect_drainLoop
    (probe : Row → Except KernelError (List JoinedRow)) {cursor : Cursor Row}
    {lefts queue : List Row}
    (collected : cursor.collect = .ok lefts)
    (busy : queue = [] → lefts = []) :
    (drainLoop probe cursor queue).collect = probeEach probe (queue ++ lefts) := by
  induction cursor generalizing lefts queue with
  | exhausted =>
      cases collected
      rw [append_nil]
      clear busy
      induction queue with
      | nil => rfl
      | cons row queue ih =>
          rw [drainLoop, foldr_cons, Cursor.collect_prependOr, ← drainLoop,
            ih, probeEach_cons]
  | failed error => cases collected
  | yields next rest ih =>
      obtain ⟨others, isRest, isLefts⟩ := bind_eq_ok.mp collected
      cases isLefts
      cases queue with
      | nil => cases busy rfl
      | cons row queue =>
          rw [drainLoop, Cursor.collect_prependOr, ih isRest (by simp), append_assoc]
          exact (probeEach_cons ..).symm

/-- What cannot be read of the left ends a loop, if no probe of a row read does. -/
theorem collect_drainLoop_of_error
    {probe : Row → Except KernelError (List JoinedRow)} {cursor : Cursor Row}
    {error : KernelError}
    (failed : cursor.collect = .error error)
    {queue : List Row}
    (busy : queue ≠ []) :
    ∃ refusal, (drainLoop probe cursor queue).collect = .error refusal ∧
      (refusal = error ∨
        ∃ left ∈ queue ++ cursor.yielded, probe left = .error refusal) := by
  induction cursor generalizing queue with
  | exhausted => cases failed
  | failed refusal =>
      cases failed
      obtain ⟨row, others, rfl⟩ := exists_cons_of_ne_nil busy
      rw [drainLoop, Cursor.collect_prependOr]
      cases isProbe : probe row with
      | error refusal => exact ⟨refusal, rfl, .inr ⟨row, mem_cons_self, isProbe⟩⟩
      | ok shown => exact ⟨error, rfl, .inl rfl⟩
  | yields next rest ih =>
      obtain ⟨row, others, rfl⟩ := exists_cons_of_ne_nil busy
      obtain ⟨refusal, refused, isCause⟩ := @ih
        (Cursor.error_of_yields failed) (others ++ [next]) (by simp)
      rw [drainLoop, Cursor.collect_prependOr]
      cases isProbe : probe row with
      | error refusal => exact ⟨refusal, rfl, .inr ⟨row, mem_cons_self, isProbe⟩⟩
      | ok shown =>
          rw [refused]
          refine ⟨refusal, rfl, isCause.imp_right ?_⟩
          rintro ⟨left, member, isProbe⟩
          exact ⟨left, mem_cons_of_mem _ (by simpa [Cursor.yielded] using member), isProbe⟩

section

variable [Platform]

variable
  {join : Join}
  {schema : JoinSchema}

omit [Platform] in
/-- Probes that find rows in any order give what these are joined to. -/
theorem probeEach_perm
    {probe : Row → Except KernelError (List JoinedRow)}
    {shown : Row → List JoinedRow} {lefts : List Row}
    (probes : ∀ left ∈ lefts, ∃ rows, probe left = .ok rows ∧ rows.Perm (shown left)) :
    ∃ joined, probeEach probe lefts = .ok joined ∧
      joined.Perm (lefts.flatMap shown) := by
  induction lefts with
  | nil => exact ⟨[], rfl, .refl _⟩
  | cons left rest ih =>
      obtain ⟨⟨rows, isProbe, perm⟩, others⟩ := forall_mem_cons.mp probes
      obtain ⟨joined, isJoined, perm'⟩ := ih others
      refine ⟨rows ++ joined, ?_, perm.append perm'⟩
      rw [probeEach_cons, isProbe, isJoined]
      rfl

/-- What a left row is joined to, among rows of the right. -/
def Join.shown (join : Join) (schema : JoinSchema) (rights : List Row)
    (left : Row) : List JoinedRow :=
  if (rights.filter (join.agree schema left)).isEmpty then
    join.alone .left left
  else
    (rights.filter (join.agree schema left)).map (.matched left)

/-- A left row is joined to what agrees with it, in whatever order it comes. -/
theorem loopRows_perm
    {left : Row} {fetched rights : List Row}
    (perm : fetched.Perm
      (rights.filter (fun right => agreeOn join.on left.get right.get))) :
    (loopRows join schema left fetched).Perm (join.shown schema rights left) := by
  have paired : ((fetched.map (JoinedRow.matched left)).filter
      (fun row => row.admitted join.having schema)).Perm
        ((rights.filter (join.agree schema left)).map (.matched left)) := by
    rw [filter_map]
    refine ((perm.filter _).map _).trans (.of_eq ?_)
    rw [filter_filter]
    exact congrArg _ (filter_congr (fun right _ => Bool.and_comm ..))
  rw [loopRows, Join.shown]
  generalize (fetched.map (JoinedRow.matched left)).filter _ = shown at paired ⊢
  cases isPairs : rights.filter (join.agree schema left) with
  | nil =>
      rw [isPairs] at paired
      rw [paired.eq_nil]
      exact .refl _
  | cons right others =>
      rw [isPairs] at paired
      cases shown with
      | nil => cases paired.symm.eq_nil
      | cons first rest => exact paired

namespace JoinReads

variable
  (reads : JoinReads)
  (snapshot : Snapshot)
  (context : SecurityContext)
  (left right : TableDef)
  (join : Join)

/-- What a left row is joined to, by one probe of the right table. -/
def probeRow (row : Row) : Except KernelError (List JoinedRow) := do
  let fetched ←
    reads.probe snapshot context right join.right (probeFilter row.get join.on)
  return loopRows join (.of left right) row fetched

variable {reads snapshot context left right join}

/--
A nested loop returns, left row by left row, what each is joined to, or fails as
the first probe that does, unless the left cannot be read.  Where each probe
returns the rows that agree, in some order, these are the rows of the join.
-/
theorem joinState_nestedLoop
    {outer : Cursor Row}
    (isOpened : reads.execute snapshot context left join.left = .ok outer)
    (leftPlan rightPlan : Plan) :
    ∃ cursor, reads.joinState snapshot context left right join
        ⟨.nestedLoop, leftPlan, rightPlan⟩ = .ok cursor ∧
      (∀ lefts, outer.collect = .ok lefts → cursor.collect = probeEach
        (reads.probeRow snapshot context left right join) lefts) ∧
      (∀ error, outer.collect = .error error → ∃ refusal,
        cursor.collect = .error refusal ∧ (refusal = error ∨ ∃ row ∈ outer.yielded,
          reads.probeRow snapshot context left right join row = .error refusal)) ∧
      ∀ lefts rights, outer.collect = .ok lefts →
        join.joinType.preserves .right = false →
        (∀ row ∈ lefts, ∃ fetched, reads.probe snapshot context right join.right
            (probeFilter row.get join.on) = .ok fetched ∧
          fetched.Perm
            (rights.filter (fun other => agreeOn join.on row.get other.get))) →
        ∃ joined, cursor.collect = .ok joined ∧
          joined.Perm (join.rows (.of left right) lefts rights) := by
  have isLoop : ∀ queue rest, outer.pull PROBE_CONCURRENCY = .ok (queue, rest) →
        reads.joinState snapshot context left right join
          ⟨.nestedLoop, leftPlan, rightPlan⟩ = .ok (drainLoop
            (reads.probeRow snapshot context left right join) rest queue) := by
    intro queue rest pulled
    rw [joinState]
    dsimp only
    rw [isOpened]
    change Except.ok _ = _
    rw [pulled]
    rfl
  cases isLeft : outer.collect with
  | error error =>
      rcases Cursor.pull_of_error isLeft PROBE_CONCURRENCY with
        refused | ⟨queue, rest, pulled, isLength, areYielded, restFailed⟩
      · refine ⟨.failed error, ?_, ?_, ?_, ?_⟩
        · rw [joinState]
          dsimp only
          rw [isOpened]
          change Except.ok _ = _
          rw [refused]
        · rintro lefts ⟨⟩
        · rintro _ ⟨⟩
          exact ⟨error, rfl, .inl rfl⟩
        · rintro lefts rights ⟨⟩
      · refine ⟨_, isLoop queue rest pulled, ?_, ?_, ?_⟩
        · rintro lefts ⟨⟩
        · rintro _ ⟨⟩
          rw [← areYielded]
          refine collect_drainLoop_of_error restFailed ?_
          rintro rfl
          cases isLength
        · rintro lefts rights ⟨⟩
  | ok lefts =>
      obtain ⟨rest, pulled, isRest⟩ := Cursor.exists_pull isLeft PROBE_CONCURRENCY
      have collected : (drainLoop (reads.probeRow snapshot context left right join) rest
            (lefts.take PROBE_CONCURRENCY)).collect = probeEach
              (reads.probeRow snapshot context left right join) lefts := by
        rw [collect_drainLoop _ isRest, take_append_drop]
        intro isEmpty
        rcases take_eq_nil_iff.mp isEmpty with none_ | rfl
        · cases none_
        · rfl
      refine ⟨_, isLoop _ rest pulled, ?_, ?_, ?_⟩
      · rintro _ ⟨⟩
        exact collected
      · rintro _ ⟨⟩
      · rintro _ rights ⟨⟩ dropsRight probes
        rw [collected]
        have shown : ∀ row ∈ lefts, ∃ rows,
            reads.probeRow snapshot context left right join row = .ok rows ∧
              rows.Perm (join.shown (.of left right) rights row) := by
          intro row member
          obtain ⟨fetched, isFetched, agrees⟩ := probes row member
          refine ⟨_, ?_, loopRows_perm agrees⟩
          rw [probeRow, isFetched]
          rfl
        obtain ⟨joined, isJoined, perm⟩ := probeEach_perm shown
        have streamed := @OuterJoin.streamed_perm _ _ _
          (join.agree (.of left right)) .matched (join.alone .left)
          (join.alone .right) lefts rights
        rw [Join.flatMap_alone dropsRight, append_nil] at streamed
        exact ⟨joined, isJoined, perm.trans streamed⟩

end JoinReads

end

/-! ## Poems that are looped over -/

section

local instance loopPlatform : Platform := asciiPlatform

/-- Three poems are probed for, and the two that have no later one come alone. -/
theorem joinState_nestedLoop_poems :
    ∃ cursor joined,
      indifferentJoinReads.joinState poemShelf.transaction .superuser (poems .asc)
        (poems .asc) (laterJoin .left) ⟨.nestedLoop, shelfScan, shelfScan⟩ =
          .ok cursor ∧
      cursor.collect = .ok joined ∧
      joined.Perm [.matched ⟨[.i64 1, .str "a"]⟩ ⟨[.i64 2, .str "a"]⟩,
        .leftOnly ⟨[.i64 2, .str "a"]⟩, .leftOnly ⟨[.i64 3, .str "b"]⟩] := by
  obtain ⟨outer, isOpened, collected⟩ := bind_eq_ok.mp read_poemShelf
  obtain ⟨cursor, isState, -, -, perm⟩ := @JoinReads.joinState_nestedLoop _
    indifferentJoinReads poemShelf.transaction .superuser (poems .asc)
    (poems .asc) (laterJoin .left) outer isOpened shelfScan shelfScan
  obtain ⟨joined, isJoined, perm⟩ := perm shelvedPoems shelvedPoems collected rfl (by
    simp only [shelvedPoems, forall_mem_cons, not_mem_nil, false_implies,
      implies_true, and_true]
    refine ⟨⟨_, ?_, Perm.refl _⟩, ⟨_, ?_, Perm.refl _⟩, ⟨_, ?_, Perm.refl _⟩⟩
    all_goals with_unfolding_all rfl)
  exact ⟨cursor, joined, isState, isJoined, perm⟩

end

end SlateOrm
