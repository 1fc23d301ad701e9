import SlateOrm.GroupedCursors
import SlateOrm.GroupedRows

namespace SlateOrm

/-!
# Groups without keys

A query is aggregated into one list of values that is there before the first
row, and grouped into a group that is there from the first row on.  Without keys
the two fold the rows in one way, and differ when there is no row.
-/

/-! ## Folding into the only group -/

/-- The grouping of all rows into one group. -/
def Grouping.keyless (aggregates : List Aggregate) : Grouping where
  group := []
  aggregates := aggregates

/-- The only group, once a row has been folded into it. -/
def Grouper.only (accumulators : Accumulators) : Grouper.Groups :=
  [([], [], accumulators)]

namespace Grouper

variable {limits : ExecutionLimits} {aggregates : List Aggregate}

theorem push_only
    (accumulators : Accumulators) (row : Row) :
    push (.keyless aggregates) limits (only accumulators) row =
      (accumulators.push row).map only := by
  cases pushed : accumulators.push row <;>
    simp [push, KeyedFolds.push, KeyedFolds.lookup, KeyedFolds.replace, only,
      accumulate, Grouping.encodedKey, Grouping.keyless, pushed, Except.map]

theorem push_first
    (admits : 0 < limits.maxGroups)
    (row : Row) :
    push (.keyless aggregates) limits [] row =
      ((Accumulators.withLimits aggregates limits).push row).map only := by
  cases pushed : (Accumulators.withLimits aggregates limits).push row <;>
    simp [push, KeyedFolds.push, KeyedFolds.lookup, only, accumulate, start,
      Grouping.encodedKey, Grouping.key, Grouping.keyless, pushed, Except.map,
      admits.ne']

theorem foldM_only
    (rows : Cursor Row) (accumulators : Accumulators) :
    rows.foldM (push (.keyless aggregates) limits) (only accumulators) =
      (rows.foldM Accumulators.push accumulators).map only := by
  induction rows generalizing accumulators with
  | exhausted
  | failed error => rfl
  | yields row rest ih =>
      rw [Cursor.foldM, Cursor.foldM, push_only]
      cases accumulators.push row with
      | error error => rfl
      | ok next => exact ih next

theorem finish_nil
    [Platform] :
    finish (.keyless aggregates) [] = [] := by
  simp [finish, arrange, ordered, KeyedFolds.sorted, Grouping.keyless]

theorem finish_only
    [Platform] (accumulators : Accumulators) :
    finish (.keyless aggregates) (only accumulators) = [⟨[], accumulators.finish⟩] := by
  rw [finish, only, ordered_singleton]
  simp [arrange, Grouping.keyless, Expr.admits, Expr.evaluate,
    Expr.evaluateOver, Truth.admits]

end Grouper

/-! ## Aggregates and groups of a query -/

namespace JoinReads

variable
  [Platform]
  (reads : JoinReads)
  (context : SecurityContext)
  (snapshot : Snapshot)
  (table : TableDef)
  (query : PagedQuery)
  (aggregates : List Aggregate)

/-- The rows that a query is aggregated over. -/
def aggregated : Except KernelError (Cursor Row) := do
  noCursorOnGroups table query
  reads.execute snapshot context table (query.narrowed aggregates [])

/-- Compute aggregates of the rows that a query selects. -/
def aggregate : Except KernelError (List Value) := do
  let rows ← reads.aggregated context snapshot table query aggregates
  let accumulators ← rows.foldM Accumulators.push (.withLimits aggregates reads.limits)
  return accumulators.finish

/-- A query is grouped without keys into one group, of what it is aggregated to,
and is refused as its aggregates are. -/
def OneGroup : Prop :=
  reads.grouped context snapshot table query (.keyless aggregates) =
    (reads.aggregate context snapshot table query aggregates).map
      fun values => [⟨[], values⟩]

theorem grouped_keyless :
    reads.grouped context snapshot table query (.keyless aggregates) =
      reads.aggregated context snapshot table query aggregates >>=
        reads.groupsOf (.keyless aggregates) id := by
  simp only [grouped, planGrouped, aggregated, Grouping.keyless]
  cases noCursorOnGroups table query with
  | error error => rfl
  | ok _ =>
      -- What cannot be planned is not executed either, for the same reason.
      change (reads.planQuery context table (query.narrowed aggregates []) >>=
        fun plan => _ ) >>= _ = _
      cases planned : reads.planQuery context table (query.narrowed aggregates []) with
      | error error =>
          simp only [planQuery] at planned
          simp [execute, PagedQuery.execute, planned, bind, Except.bind]
      | ok plan => rfl

/-- A query is grouped into one group just when it does not select no rows. -/
theorem oneGroup_iff
    (admits : 0 < reads.limits.maxGroups) :
    reads.OneGroup context snapshot table query aggregates ↔
      reads.aggregated context snapshot table query aggregates ≠ .ok .exhausted := by
  rw [OneGroup, grouped_keyless, aggregate]
  cases reads.aggregated context snapshot table query aggregates with
  | error error => exact iff_of_true rfl nofun
  | ok rows =>
      cases rows with
      | exhausted =>
          refine iff_of_false ?_ fun reached => reached rfl
          intro same
          have groups := congrArg List.length (Except.ok.inj same)
          simp [Grouper.finish_nil] at groups
      | failed error => exact iff_of_true rfl nofun
      | yields row rest =>
          refine iff_of_true ?_ nofun
          have first := @Grouper.push_first reads.limits aggregates admits row
          simp only [bind, Except.bind, groupsOf, Cursor.foldM, id, first]
          cases (Accumulators.withLimits aggregates reads.limits).push row with
          | error error => rfl
          | ok next =>
              simp only [Except.map, Grouper.foldM_only]
              cases rest.foldM Accumulators.push next with
              | error error => rfl
              | ok last => exact congrArg Except.ok (Grouper.finish_only last)

end JoinReads

/-- Three poems are counted in one group. -/
theorem oneGroup_iff_poems :
    let _ : Platform := asciiPlatform
    indifferentJoinReads.OneGroup .superuser poemShelf.transaction (poems .asc) {}
      [.count] := by
  intro _
  have isRead : ∃ row rest, indifferentJoinReads.aggregated .superuser
      poemShelf.transaction (poems .asc) {} [.count] = .ok (.yields row rest) :=
    ⟨_, _, by with_unfolding_all rfl⟩
  obtain ⟨row, rest, isRead⟩ := isRead
  refine (@JoinReads.oneGroup_iff asciiPlatform indifferentJoinReads .superuser
    poemShelf.transaction (poems .asc) {} [.count] (by decide)).mpr ?_
  rw [isRead]
  rintro ⟨⟩

/-- The poems of an empty store are counted as none, in no group. -/
theorem not_oneGroup_empty :
    let _ : Platform := asciiPlatform
    ¬ indifferentJoinReads.OneGroup .superuser emptySnapshot (poems .asc) {}
      [.count] := by
  intro _ same
  have nothing : indifferentJoinReads.aggregated .superuser emptySnapshot
      (poems .asc) {} [.count] = .ok .exhausted :=
    @JoinReads.execute_emptySnapshot asciiPlatform indifferentJoinReads
      .superuser (poems .asc) (PagedQuery.narrowed {} [.count] []) _ rfl
      (Nat.zero_le _)
  rw [JoinReads.OneGroup, JoinReads.grouped_keyless, JoinReads.aggregate,
    nothing] at same
  have groups := congrArg List.length (Except.ok.inj same)
  simp [Grouper.finish_nil] at groups

end SlateOrm
