import Mathlib.Data.List.Nodup
import SlateOrm.MemoryStore

namespace SlateOrm.MemoryStore

open List Overlay

/-!
# Snapshot isolation of the in-memory store

What a transaction should see, and when it should be refused, is said here of
the trace of calls alone: the committed state when it began, the writes it has
made since, and the write sets committed since.  The store's own state keeps a
shared map, a version counter, a trimmed history and a count of running
transactions instead.  One invariant ties the two together, and every call
preserves it.
-/

/-! ## What the trace says -/

/-- The calls made so far and their answers, newest first. -/
abbrev Trace := List (Action × Response)

/-- The writes a transaction has made since it began. -/
def writesOf (id : Nat) : Trace → Pending
  | [] => ∅
  | (.begin other, _) :: past => if other = id then ∅ else writesOf id past
  | (.put other key value, _) :: past =>
      if other = id then
        (writesOf id past).insert key (some value)
      else
        writesOf id past
  | (.delete other key, _) :: past =>
      if other = id then
        (writesOf id past).insert key none
      else
        writesOf id past
  | _ :: past => writesOf id past

/-- Whether a transaction has begun and neither ended nor been dropped. -/
def isOpen (id : Nat) : Trace → Bool
  | [] => false
  | (.begin other, _) :: past => other = id || isOpen id past
  | (.commit other, _) :: past
  | (.rollback other, _) :: past
  | (.drop other, _) :: past => other ≠ id && isOpen id past
  | _ :: past => isOpen id past

/-- The committed state: every successful commit's writes, in order. -/
def committedAfter : Trace → Kv
  | [] => ∅
  | (.commit id, .commit (.committed (some _))) :: past =>
      Overlay.apply (committedAfter past) (writesOf id past)
  | _ :: past => committedAfter past

/-- The trace up to the start of a transaction. -/
def startOf (id : Nat) : Trace → Trace
  | [] => []
  | (.begin other, _) :: past => if other = id then past else startOf id past
  | _ :: past => startOf id past

/-- The write sets committed since a transaction began, newest first. -/
def commitsSince (id : Nat) : Trace → List Pending
  | [] => []
  | (.begin other, _) :: past => if other = id then [] else commitsSince id past
  | (.commit other, .commit (.committed (some _))) :: past =>
      writesOf other past :: commitsSince id past
  | _ :: past => commitsSince id past

/-- What a transaction should see: its start overlaid with its own writes. -/
def expectedView (id : Nat) (trace : Trace) : Kv :=
  Overlay.apply (committedAfter (startOf id trace)) (writesOf id trace)

/-- The entries of a state in a range, in an order. -/
def entriesIn (view : Kv) (range : KeyRange) (order : ScanOrder) : List KeyValue :=
  let items := (view.toList.filter (fun entry => range.contains entry.1)).map
    (fun entry => (⟨entry.1, entry.2⟩ : KeyValue))
  match order with
  | .ascending => items
  | .descending => items.reverse

/-- The store after a trace of calls, starting empty. -/
inductive Run : Trace → State → Prop where
  | new : Run [] State.new
  | step {trace : Trace} {state next : State} {action : Action} {response : Response}
      (before : Run trace state)
      (stepped : step state action = some (next, response)) :
      Run ((action, response) :: trace) next

/-! ## Reads through a transaction -/

namespace Transaction

theorem get_eq
    (transaction : Transaction) (key : Bytes) :
    transaction.get key = (apply transaction.base transaction.pending)[key]? := by
  rw [getElem?_apply]
  unfold get
  cases transaction.pending[key]? <;> rfl

theorem visibleRange_eq
    (transaction : Transaction) (range : KeyRange) :
    transaction.visibleRange range = entriesIn
        (apply transaction.base transaction.pending)
        range .ascending := by
  unfold visibleRange entriesIn
  by_cases empty : range.isEmpty
  · simp [empty, KeyRange.contains_eq_false_of_isEmpty empty]
  · have view : (apply (within range.contains transaction.base)
            (within range.contains transaction.pending)).toList =
          (apply transaction.base transaction.pending).toList.filter
            (fun entry => range.contains entry.1) := by
      rw [apply_within, toList_within]
    simp only [empty, Bool.false_eq_true, if_false]
    split
    · rename_i untouched
      have nothing : within range.contains transaction.pending = ∅ :=
        Std.ExtTreeMap.isEmpty_iff.mp untouched
      rw [nothing, apply_empty] at view
      rw [view]
    · rw [view]

theorem scan_eq
    (transaction : Transaction) (range : KeyRange) (order : ScanOrder) :
    transaction.scan range order = entriesIn
        (apply transaction.base transaction.pending)
        range order := by
  cases order with
  | ascending => exact transaction.visibleRange_eq range
  | descending =>
      simp only [scan, transaction.visibleRange_eq range]
      rfl

end Transaction

/-! ## The invariant -/

/-- What the store keeps for one transaction agrees with the trace. -/
structure SessionInvariant
    (trace : Trace)
    (shared : Shared)
    (session : Session) : Prop where
  started : session.transaction.startedAt ≤ shared.version
  snapshot : session.live → session.transaction.snapshot =
        some (committedAfter (startOf session.id trace))
  pending : session.live → session.transaction.pending = writesOf session.id trace
  records : ∀ keys, (∃ version, (version, keys) ∈ shared.history ∧
        session.transaction.startedAt < version) ↔
      ∃ writes ∈ commitsSince session.id trace, keys = writes.keys

/-- The whole store agrees with the trace. -/
structure Invariant (trace : Trace) (state : State) : Prop where
  committed : state.shared.committed = committedAfter trace
  distinct : (state.sessions.map Session.id).Nodup
  counted : ∀ version, (state.shared.active[version]?).getD 0 = state.sessions.countP
        (fun session => session.transaction.startedAt = version)
  recorded : ∀ record ∈ state.shared.history, record.1 ≤ state.shared.version
  sessions : ∀ session ∈ state.sessions, SessionInvariant trace state.shared session

theorem Invariant.new :
    Invariant [] State.new where
  committed := rfl
  distinct := nodup_nil
  counted := fun version => by simp [State.new, Shared.new]
  recorded := by simp [State.new, Shared.new]
  sessions := by simp [State.new]

variable {id : Nat}

namespace State

variable {state : State}

theorem of_live?
    {session : Session}
    (found : state.live? id = some session) :
    session ∈ state.sessions ∧ session.id = id ∧ session.live := by
  have holds := find?_some found
  simp only [Bool.decide_and, Bool.decide_eq_true, Bool.and_eq_true,
    decide_eq_true_eq] at holds
  exact ⟨mem_of_find?_eq_some found, holds⟩

theorem mem_replace
    {session other : Session}
    (member : other ∈ (state.replace session).sessions) :
    other = session ∨ other ∈ state.sessions ∧ other.id ≠ session.id := by
  obtain ⟨before, beforeMember, replaced⟩ := mem_map.mp member
  by_cases same : before.id = session.id
  · rw [if_pos same] at replaced
    exact Or.inl replaced.symm
  · rw [if_neg same] at replaced
    subst replaced
    exact Or.inr ⟨beforeMember, same⟩

/-- Which handles are usable after a transaction is replaced. -/
theorem exists_replace
    {old session : Session}
    (inState : old ∈ state.sessions)
    (same : old.id = session.id)
    (id : Nat) :
    (if session.id = id then
      session.live = true
    else
      ∃ other ∈ state.sessions, other.id = id ∧ other.live) ↔
    ∃ other ∈ (state.replace session).sessions, other.id = id ∧ other.live := by
  split
  · next isHere =>
      subst isHere
      constructor
      · intro live
        exact ⟨session, mem_map.mpr ⟨old, inState, if_pos same⟩, rfl, live⟩
      · rintro ⟨other, member, sameId, live⟩
        rcases mem_replace member with rfl | ⟨-, differs⟩
        · exact live
        · exact absurd sameId differs
  · next elsewhere =>
      constructor
      · rintro ⟨other, inState, rfl, live⟩
        exact ⟨other, mem_map.mpr
          ⟨other, inState, if_neg (Ne.symm elsewhere)⟩, rfl, live⟩
      · rintro ⟨other, member, rfl, live⟩
        rcases mem_replace member with rfl | ⟨inState, -⟩
        · exact absurd rfl elsewhere
        · exact ⟨other, inState, rfl, live⟩

theorem map_id_replace
    (state : State) (session : Session) :
    (state.replace session).sessions.map Session.id =
      state.sessions.map Session.id := by
  simp only [replace, map_map]
  apply map_congr_left
  intro other _
  by_cases same : other.id = session.id <;> simp [same]

section

variable
  (distinct : (state.sessions.map Session.id).Nodup)

include distinct

theorem eq_of_id_eq
    {first second : Session}
    (firstMember : first ∈ state.sessions)
    (secondMember : second ∈ state.sessions)
    (sameId : first.id = second.id) :
    first = second :=
  inj_on_of_nodup_map distinct firstMember secondMember sameId

theorem countP_replace
    {old session : Session}
    (member : old ∈ state.sessions)
    (sameId : session.id = old.id)
    (sameStart : session.transaction.startedAt = old.transaction.startedAt)
    (version : Nat) :
    (state.replace session).sessions.countP
        (fun other => other.transaction.startedAt = version) =
      state.sessions.countP (fun other => other.transaction.startedAt = version) := by
  rw [replace, countP_map]
  apply countP_congr
  intro other otherMember
  by_cases same : other.id = session.id
  · have isOld : other = old :=
      eq_of_id_eq distinct otherMember member (same.trans sameId)
    subst isOld
    simp [sameId, sameStart]
  · simp [same]

/-- Dropping a transaction lowers exactly the count of its start. -/
theorem countP_drop
    {session : Session}
    (member : session ∈ state.sessions)
    (version : Nat) :
    state.sessions.countP (fun other => other.transaction.startedAt = version) =
      (state.sessions.filter (fun other => other.id ≠ session.id)).countP
          (fun other => other.transaction.startedAt = version) +
        if session.transaction.startedAt = version then 1 else 0 := by
  rcases state with ⟨shared, sessions⟩
  simp only at distinct member ⊢
  induction sessions with
  | nil => cases member
  | cons first rest ih =>
      rw [map_cons, nodup_cons] at distinct
      rcases mem_cons.mp member with isFirst | inRest
      · -- No other transaction has this handle, so the rest stays whole.
        subst isFirst
        have kept : rest.filter (fun other => other.id ≠ session.id) = rest := by
          apply filter_eq_self.mpr
          intro other otherMember
          apply decide_eq_true
          intro same
          exact distinct.1 (mem_map.mpr ⟨other, otherMember, same⟩)
        rw [filter_cons_of_neg (by simp), kept, countP_cons]
        simp
      · have different : first.id ≠ session.id := by
          intro same
          exact distinct.1 (mem_map.mpr ⟨session, inRest, same.symm⟩)
        rw [filter_cons_of_pos (by simpa using different), countP_cons,
          countP_cons, ih distinct.2 inRest]
        omega

end

end State

/-! ## Every call preserves the invariant -/

/-- A call that writes nothing and starts nothing leaves the trace's view. -/
structure Quiet (event : Action × Response) : Prop where
  committed : ∀ trace, committedAfter (event :: trace) = committedAfter trace
  start : ∀ id trace, startOf id (event :: trace) = startOf id trace
  since : ∀ id trace, commitsSince id (event :: trace) = commitsSince id trace

variable {event : Action × Response} {trace : Trace} {state : State}

theorem SessionInvariant.quiet
    {shared : Shared} {session : Session}
    (kept : SessionInvariant trace shared session) (quiet : Quiet event)
    (writes : writesOf session.id (event :: trace) = writesOf session.id trace) :
    SessionInvariant (event :: trace) shared session where
  started := kept.started
  snapshot := by
    rw [quiet.start]
    exact kept.snapshot
  pending := by
    rw [writes]
    exact kept.pending
  records := by
    rw [quiet.since]
    exact kept.records

theorem Invariant.read
    (kept : Invariant trace state) (quiet : Quiet event)
    (writes : ∀ id, writesOf id (event :: trace) = writesOf id trace) :
    Invariant (event :: trace) state where
  committed := by
    rw [quiet.committed]
    exact kept.committed
  distinct := kept.distinct
  counted := kept.counted
  recorded := kept.recorded
  sessions := fun session member =>
    (kept.sessions session member).quiet quiet (writes session.id)

/--
A quiet call that changes one transaction only.  The transaction keeps its
handle and its start; while it can still be used, its snapshot stays and its
buffer is what the trace says.
-/
theorem Invariant.replace
    (kept : Invariant trace state) (quiet : Quiet event) {old session : Session}
    (member : old ∈ state.sessions)
    (sameId : session.id = old.id)
    (sameStart : session.transaction.startedAt = old.transaction.startedAt)
    (others : ∀ id, id ≠ session.id → writesOf id (event :: trace) = writesOf id trace)
    (usable : session.live → old.live ∧
        session.transaction.snapshot = old.transaction.snapshot ∧
        session.transaction.pending = writesOf session.id (event :: trace)) :
    Invariant (event :: trace) (state.replace session) where
  committed := by
    rw [quiet.committed]
    exact kept.committed
  distinct := by
    rw [State.map_id_replace]
    exact kept.distinct
  counted := fun version => by
    rw [State.countP_replace kept.distinct member sameId sameStart]
    exact kept.counted version
  recorded := kept.recorded
  sessions := by
    intro other otherMember
    have oldKept := kept.sessions old member
    rcases State.mem_replace otherMember with isNew | ⟨inOld, different⟩
    · subst isNew
      exact {
        started := by
          rw [sameStart]
          exact oldKept.started
        snapshot := by
          intro live
          obtain ⟨oldLive, sameSnapshot, -⟩ := usable live
          rw [sameSnapshot, quiet.start, sameId]
          exact oldKept.snapshot oldLive
        pending := fun live => (usable live).2.2
        records := by
          rw [quiet.since, sameId, sameStart]
          exact oldKept.records }
    · exact (kept.sessions other inOld).quiet quiet (others other.id different)


variable {response : Response}

/-- A new transaction starts at the committed state. -/
theorem Invariant.begin
    (kept : Invariant trace state)
    (fresh : ∀ session ∈ state.sessions, session.id ≠ id) :
    Invariant ((.begin id, response) :: trace)
      { shared := state.shared.register state.shared.version
        sessions := ⟨id, true,
            { snapshot := some state.shared.committed
              startedAt := state.shared.version
              pending := ∅ }⟩ :: state.sessions } where
  committed := kept.committed
  distinct := by
    rw [map_cons, nodup_cons]
    refine ⟨?_, kept.distinct⟩
    intro used
    obtain ⟨session, member, sameId⟩ := mem_map.mp used
    exact fresh session member sameId
  counted := fun version => by
    rw [countP_cons, ← kept.counted version]
    simp only [Shared.register, Std.ExtTreeMap.getElem?_insert]
    by_cases same : state.shared.version = version
    · subst same
      simp
    · simp [same]
  recorded := kept.recorded
  sessions := by
    intro session member
    rcases mem_cons.mp member with isNew | inOld
    · subst isNew
      exact {
        started := Nat.le_refl _
        snapshot := fun _ => by
          simp [startOf, kept.committed]
        pending := fun _ => by
          simp [writesOf]
        records := fun keys => by
          simp only [commitsSince, if_true, not_mem_nil, false_and,
            exists_false, iff_false]
          rintro ⟨version, recorded, later⟩
          have bound := kept.recorded _ recorded
          exact Nat.not_lt_of_le bound later }
    · have different : id ≠ session.id := (fresh session inOld).symm
      have sessionKept := kept.sessions session inOld
      exact {
        started := sessionKept.started
        snapshot := by
          simpa [startOf, different] using sessionKept.snapshot
        pending := by
          simpa [writesOf, different] using sessionKept.pending
        records := by
          simpa [commitsSince, different, Shared.register] using sessionKept.records }

/-- A successful commit adds its writes and its record. -/
theorem Invariant.commit
    {session finished : Session} {answered : Nat} (kept : Invariant trace state)
    (member : session ∈ state.sessions)
    (live : session.live)
    (sameId : finished.id = session.id)
    (sameStart : finished.transaction.startedAt = session.transaction.startedAt)
    (ended : finished.live = false) :
    Invariant ((.commit session.id, .commit (.committed (some answered))) :: trace)
      { state.replace finished with
        shared :=
          { state.shared with
            version := state.shared.version + 1
            committed := apply state.shared.committed session.transaction.pending
            history := state.shared.history ++ [(state.shared.version + 1,
                  session.transaction.pending.keys)] } } where
  committed := by
    have pending := (kept.sessions session member).pending live
    simp only [committedAfter, kept.committed, pending]
  distinct := by
    have handles := State.map_id_replace state finished
    simp only [handles]
    exact kept.distinct
  counted := fun version =>
    (kept.counted version).trans
      (State.countP_replace kept.distinct member sameId sameStart version).symm
  recorded := by
    intro record recordMember
    rcases mem_append.mp recordMember with old | new
    · exact Nat.le_succ_of_le (kept.recorded record old)
    · rw [mem_singleton] at new
      subst new
      exact Nat.le_refl _
  sessions := by
    intro other otherMember
    have pending := (kept.sessions session member).pending live
    -- Every transaction, this one included, sees one more commit.
    have records : ∀ (target : Session), SessionInvariant trace state.shared target →
        ∀ keys, (∃ version, (version, keys) ∈ state.shared.history ++
                [(state.shared.version + 1, session.transaction.pending.keys)] ∧
              target.transaction.startedAt < version) ↔
            ∃ writes ∈ writesOf session.id trace :: commitsSince target.id trace,
              keys = writes.keys := by
      intro target targetKept keys
      rw [← pending]
      constructor
      · rintro ⟨version, recorded, later⟩
        rcases mem_append.mp recorded with old | new
        · obtain ⟨writes, since, sameKeys⟩ :=
            (targetKept.records keys).mp ⟨version, old, later⟩
          exact ⟨writes, mem_cons_of_mem _ since, sameKeys⟩
        · rw [mem_singleton, Prod.mk.injEq] at new
          exact ⟨_, mem_cons_self .., new.2⟩
      · rintro ⟨writes, since, sameKeys⟩
        rcases mem_cons.mp since with isNew | old
        · subst isNew
          refine ⟨state.shared.version + 1, ?_, ?_⟩
          · rw [sameKeys]
            exact mem_append_right _ (mem_singleton.mpr rfl)
          · exact Nat.lt_succ_of_le targetKept.started
        · obtain ⟨version, recorded, later⟩ :=
            (targetKept.records keys).mpr ⟨writes, old, sameKeys⟩
          exact ⟨version, mem_append_left _ recorded, later⟩
    rcases State.mem_replace otherMember with isNew | ⟨inOld, different⟩
    · subst isNew
      have sessionKept := kept.sessions session member
      exact {
        started := by
          rw [sameStart]
          exact Nat.le_succ_of_le sessionKept.started
        snapshot := by simp [ended]
        pending := by simp [ended]
        records := by
          simpa only [commitsSince, sameId, sameStart] using
            records session sessionKept }
    · have otherKept := kept.sessions other inOld
      exact {
        started := Nat.le_succ_of_le otherKept.started
        snapshot := by simpa [startOf] using otherKept.snapshot
        pending := by simpa [writesOf] using otherKept.pending
        records := by
          simpa only [commitsSince] using records other otherKept }

namespace Shared

theorem mem_trimHistory_iff
    {shared : Shared} {version : Nat}
    (running : (shared.active[version]?).getD 0 ≠ 0)
    (record : Nat × List Bytes) :
    record ∈ shared.trimHistory.history ∧ version < record.1 ↔
      record ∈ shared.history ∧ version < record.1 := by
  have counted : version ∈ shared.active := by
    by_contra absent
    rw [Std.ExtTreeMap.getElem?_eq_none absent] at running
    exact running rfl
  -- The watermark is the oldest start still running, so not above this one.
  have watermark : shared.active.keys.head?.getD shared.version ≤ version := by
    rw [Std.ExtTreeMap.head?_keys]
    cases lowest : shared.active.minKey? with
    | none =>
        have empty := Std.ExtTreeMap.minKey?_eq_none_iff.mp lowest
        rw [empty] at counted
        exact absurd counted Std.ExtTreeMap.not_mem_empty
    | some low =>
        have least := (Std.ExtTreeMap.minKey?_eq_some_iff_mem_and_forall.mp lowest).2
            version counted
        exact Nat.isLE_compare.mp least
  simp only [trimHistory, mem_filter, decide_eq_true_eq]
  constructor
  · rintro ⟨⟨member, -⟩, later⟩
    exact ⟨member, later⟩
  · rintro ⟨member, later⟩
    exact ⟨⟨member, Nat.lt_of_le_of_lt watermark later⟩, later⟩

theorem release_eq
    (shared : Shared) (version : Nat) :
    shared.release version =
      { shared with active := (shared.release version).active } := by
  unfold release
  split
  · rfl
  · split <;> rfl

theorem getElem?_active_release
    (shared : Shared) (version query : Nat) :
    ((shared.release version).active[query]?).getD 0 = (shared.active[query]?).getD 0 -
        if version = query then 1 else 0 := by
  unfold release
  by_cases same : version = query
  · subst same
    cases counted : shared.active[version]? with
    | none => simp [counted]
    | some count => by_cases last : count - 1 = 0 <;> simp [last]
  · cases counted : shared.active[version]? with
    | none => simp [same]
    | some count =>
        by_cases last : count - 1 = 0
        · simp [last, same, Std.ExtTreeMap.getElem?_erase]
        · simp [last, same, Std.ExtTreeMap.getElem?_insert]

end Shared

variable {session : Session} {trace : Trace} {state : State}

/-- Dropping a transaction trims only what nobody needs any more. -/
theorem Invariant.drop
    (kept : Invariant trace state)
    (member : session ∈ state.sessions) :
    Invariant ((.drop session.id, response) :: trace)
      { shared := state.shared.unregister session.transaction.startedAt
        sessions := state.sessions.filter (fun other => other.id ≠ session.id) } := by
  have counted : ∀ version, ((state.shared.release
          session.transaction.startedAt).active[version]?).getD 0 =
        (state.sessions.filter (fun other => other.id ≠ session.id)).countP
          (fun other => other.transaction.startedAt = version) := by
    intro version
    rw [Shared.getElem?_active_release, kept.counted version,
      State.countP_drop kept.distinct member version]
    omega
  have quiet : Quiet ((.drop session.id, response) : Action × Response) :=
    ⟨fun _ => rfl, fun _ _ => rfl, fun _ _ => rfl⟩
  have released := Shared.release_eq state.shared session.transaction.startedAt
  exact {
    committed := by
      simp only [Shared.unregister, Shared.trimHistory]
      rw [released]
      exact kept.committed
    distinct := kept.distinct.sublist (filter_sublist.map Session.id)
    counted := counted
    recorded := by
      intro record recordMember
      have inOld := (mem_filter.mp recordMember).1
      rw [released] at inOld
      simp only [Shared.unregister, Shared.trimHistory]
      rw [released]
      exact kept.recorded record inOld
    sessions := by
      intro other otherMember
      have inOld := (mem_filter.mp otherMember).1
      have otherKept := (kept.sessions other inOld).quiet quiet rfl
      have running : ((state.shared.release session.transaction.startedAt).active[
              other.transaction.startedAt]?).getD 0 ≠ 0 := by
        rw [counted]
        apply Nat.ne_of_gt
        rw [countP_pos_iff]
        exact ⟨other, otherMember, by simp⟩
      have retained := Shared.mem_trimHistory_iff running
      exact {
        started := by
          simp only [Shared.unregister, Shared.trimHistory]
          rw [released]
          exact otherKept.started
        snapshot := otherKept.snapshot
        pending := otherKept.pending
        records := by
          intro keys
          rw [← otherKept.records keys]
          apply exists_congr
          intro version
          have record := retained (version, keys)
          rw [released] at record
          rw [Shared.unregister, released]
          exact record } }

theorem Invariant.finish
    {session finished : Session} (kept : Invariant trace state)
    (member : session ∈ state.sessions)
    (live : session.live)
    (sameId : finished.id = session.id)
    (sameStart : finished.transaction.startedAt = session.transaction.startedAt)
    (ended : finished.live = false) :
    Invariant ((.commit session.id, .commit
            (MemoryStore.commit state.shared session.transaction).2) ::
        trace)
      { state.replace finished with
        shared := (MemoryStore.commit state.shared session.transaction).1 } := by
  unfold MemoryStore.commit
  split
  · exact kept.replace ⟨fun _ => rfl, fun _ _ => rfl, fun _ _ => rfl⟩
      member sameId sameStart (fun _ _ => rfl) (by simp [ended])
  · split
    · exact kept.replace ⟨fun _ => rfl, fun _ _ => rfl, fun _ _ => rfl⟩
        member sameId sameStart (fun _ _ => rfl) (by simp [ended])
    · exact kept.commit member live sameId sameStart ended

theorem Invariant.buffer
    {event : Action × Response} {key : Bytes} {written : Option Bytes}
    (kept : Invariant trace state) (quiet : Quiet event)
    (member : session ∈ state.sessions)
    (live : session.live)
    (traced : ∀ other, writesOf other (event :: trace) =
        if session.id = other then
          (writesOf other trace).insert key written
        else
          writesOf other trace) :
    Invariant (event :: trace) (state.replace
        { session with
          transaction :=
            { session.transaction with
              pending := session.transaction.pending.insert key written } }) := by
  refine kept.replace quiet member rfl rfl ?_ ?_
  · intro other different
    rw [traced, if_neg different.symm]
  · intro _
    refine ⟨live, rfl, ?_⟩
    rw [traced, if_pos rfl, ← (kept.sessions session member).pending live]

/-- Every state of a run agrees with its trace. -/
theorem Run.invariant
    (run : Run trace state) :
    Invariant trace state := by
  induction run with
  | new => exact Invariant.new
  | @step trace state next action response before stepped kept =>
      cases action with
      | begin id =>
          simp only [MemoryStore.step] at stepped
          split at stepped
          · cases stepped
          · rename_i fresh
            cases stepped
            apply kept.begin
            simpa using fresh
      | get id key
      | scan id range order =>
          obtain ⟨session, found, answered⟩ := Option.bind_eq_some_iff.mp stepped
          cases answered
          exact kept.read ⟨fun _ => rfl, fun _ _ => rfl, fun _ _ => rfl⟩ (fun _ => rfl)
      | put id key value
      | delete id key =>
          obtain ⟨session, found, answered⟩ := Option.bind_eq_some_iff.mp stepped
          obtain ⟨member, sameId, live⟩ := State.of_live? found
          subst sameId
          cases answered
          exact kept.buffer ⟨fun _ => rfl, fun _ _ => rfl, fun _ _ => rfl⟩
            member live (fun _ => rfl)
      | commit id =>
          obtain ⟨session, found, answered⟩ := Option.bind_eq_some_iff.mp stepped
          obtain ⟨member, sameId, live⟩ := State.of_live? found
          subst sameId
          cases answered
          exact kept.finish member live rfl rfl rfl
      | rollback id =>
          obtain ⟨session, found, answered⟩ := Option.bind_eq_some_iff.mp stepped
          obtain ⟨member, sameId, live⟩ := State.of_live? found
          cases answered
          exact kept.replace ⟨fun _ => rfl, fun _ _ => rfl, fun _ _ => rfl⟩
            member rfl rfl (fun _ _ => rfl) (by simp)
      | drop id =>
          obtain ⟨session, found, answered⟩ := Option.bind_eq_some_iff.mp stepped
          have member := mem_of_find?_eq_some found
          have sameId : session.id = id := by
            simpa using find?_some found
          subst sameId
          cases answered
          exact kept.drop member

/-! ## Isolation -/

section

variable
  (kept : Invariant trace state)
  (member : session ∈ state.sessions)
  (live : session.live)

include kept member live

theorem Invariant.view :
    apply session.transaction.base session.transaction.pending =
      expectedView session.id trace := by
  have sessionKept := kept.sessions session member
  unfold expectedView Transaction.base
  rw [sessionKept.snapshot live, sessionKept.pending live]
  rfl

theorem Invariant.conflicts_iff :
    session.transaction.conflicts state.shared = true ↔
      ∃ writes ∈ commitsSince session.id trace,
        ∃ key, key ∈ writesOf session.id trace ∧ key ∈ writes := by
  have sessionKept := kept.sessions session member
  have pending := sessionKept.pending live
  unfold Transaction.conflicts
  rw [pending]
  simp only [any_eq_true, mem_filter, decide_eq_true_eq,
    contains_iff_mem, Std.ExtTreeMap.mem_keys]
  constructor
  · rintro ⟨⟨version, keys⟩, ⟨recorded, later⟩, key, written, shared⟩
    obtain ⟨writes, since, sameKeys⟩ :=
      (sessionKept.records keys).mp ⟨version, recorded, later⟩
    subst sameKeys
    exact ⟨writes, since, key, written, Std.ExtTreeMap.mem_keys.mp shared⟩
  · rintro ⟨writes, since, key, written, shared⟩
    obtain ⟨version, recorded, later⟩ :=
      (sessionKept.records writes.keys).mpr ⟨writes, since, rfl⟩
    exact ⟨(version, writes.keys), ⟨recorded, later⟩, key, written,
      Std.ExtTreeMap.mem_keys.mpr shared⟩

end

theorem commit_refused_iff
    (shared : Shared) (transaction : Transaction) :
    (MemoryStore.commit shared transaction).2 = .transactionConflict ↔
      transaction.conflicts shared = true := by
  unfold MemoryStore.commit
  by_cases nothing : transaction.pending.isEmpty
  · have empty := Std.ExtTreeMap.isEmpty_iff.mp nothing
    simp [Transaction.conflicts, empty]
  · by_cases refused : transaction.conflicts shared <;>
      simp [nothing, refused]

/-! ## What a commit finds -/

theorem getElem?_committedAfter_of_unwritten
    {key : Bytes}
    (unwritten : ∀ writes ∈ commitsSince id trace, key ∉ writes) :
    (committedAfter trace)[key]? = (committedAfter (startOf id trace))[key]? := by
  fun_induction commitsSince id trace with
  | case1 => rfl
  | case2 => simp [startOf, committedAfter]
  | case3 other response past different ih =>
      rw [startOf, if_neg different, committedAfter]
      · exact ih unwritten
      · simp
  | case4 other version past ih =>
      have older := ih (fun writes since => unwritten writes (mem_cons_of_mem _ since))
      have absent := unwritten _ (mem_cons_self ..)
      rw [committedAfter, startOf, getElem?_apply, ← older,
        Std.ExtTreeMap.getElem?_eq_none absent]
      · rfl
      · simp
  | case5 event past notBegin notCommit ih =>
      rw [committedAfter, startOf]
      · exact ih unwritten
      · exact notBegin
      · exact notCommit

/-- A session goes on: what it reads stays, and what it wrote stays written. -/
structure Session.Continues (before after : Session) : Prop where
  id : before.id = after.id
  live : before.live
  snapshot : before.transaction.snapshot = after.transaction.snapshot
  pending : ∀ key ∈ before.transaction.pending, key ∈ after.transaction.pending

theorem Session.Continues.refl
    (live : session.live) :
    session.Continues session where
  id := rfl
  live := live
  snapshot := rfl
  pending := fun _ written => written

theorem continues_of_replace
    {old replaced session : Session}
    (inState : old ∈ state.sessions)
    (continues : replaced.live → old.Continues replaced)
    (member : session ∈ (state.replace replaced).sessions)
    (live : session.live) :
    ∃ before ∈ state.sessions, before.Continues session := by
  rcases State.mem_replace member with rfl | ⟨unchanged, _⟩
  · exact ⟨old, inState, continues live⟩
  · exact ⟨session, unchanged, .refl live⟩

/-- Every usable transaction after a call has begun in it or goes on. -/
theorem continues_of_step
    {state next : State} {action : Action}
    (stepped : step state action = some (next, response))
    (member : session ∈ next.sessions)
    (live : session.live) :
    action = .begin session.id ∨
      ∃ before ∈ state.sessions, before.Continues session := by
  cases action with
  | begin id =>
      simp only [step] at stepped
      split at stepped
      · cases stepped
      · cases stepped
        rcases mem_cons.mp member with rfl | inState
        · exact Or.inl rfl
        · exact Or.inr ⟨session, inState, .refl live⟩
  | get id key
  | scan id range order =>
      obtain ⟨found, _, answered⟩ := Option.bind_eq_some_iff.mp stepped
      cases answered
      exact Or.inr ⟨session, member, .refl live⟩
  | put id key value
  | delete id key =>
      obtain ⟨found, isLive, answered⟩ := Option.bind_eq_some_iff.mp stepped
      obtain ⟨inState, _, foundLive⟩ := State.of_live? isLive
      cases answered
      refine Or.inr (continues_of_replace inState (fun _ => ?_) member live)
      exact ⟨rfl, foundLive, rfl, fun _ written =>
        Std.ExtTreeMap.mem_insert.mpr (Or.inr written)⟩
  | commit id
  | rollback id =>
      obtain ⟨found, isLive, answered⟩ := Option.bind_eq_some_iff.mp stepped
      obtain ⟨inState, _, _⟩ := State.of_live? isLive
      cases answered
      exact Or.inr (continues_of_replace inState
        (fun finished => by cases finished) member live)
  | drop id =>
      obtain ⟨found, _, answered⟩ := Option.bind_eq_some_iff.mp stepped
      cases answered
      exact Or.inr ⟨session, (mem_filter.mp member).1, .refl live⟩

theorem committed_eq_base_of_commit
    {state next : State} {version : Option Nat} (run : Run trace state)
    (stepped : step state (.commit id) = some (next, .commit (.committed version))) :
    ∃ session, state.live? id = some session ∧ ∀ key ∈ session.transaction.pending,
          state.shared.committed[key]? = session.transaction.base[key]? := by
  have kept := run.invariant
  obtain ⟨session, found, answered⟩ := Option.bind_eq_some_iff.mp stepped
  obtain ⟨member, rfl, live⟩ := State.of_live? found
  have sessionKept := kept.sessions session member
  have notRefused : ¬session.transaction.conflicts state.shared = true := by
    rw [← commit_refused_iff]
    intro refused
    have answer : Response.commit
            (MemoryStore.commit state.shared session.transaction).2 =
          .commit (.committed version) :=
      (Prod.mk.inj (Option.some.inj answered)).2
    rw [refused] at answer
    cases answer
  refine ⟨session, found, fun key written => ?_⟩
  rw [kept.committed, Transaction.base, sessionKept.snapshot live]
  refine getElem?_committedAfter_of_unwritten (fun writes since shared => ?_)
  rw [sessionKept.pending live] at written
  exact notRefused ((kept.conflicts_iff member live).mpr
    ⟨writes, since, key, written, shared⟩)

/-- The transaction under a handle can be used exactly when it is open. -/
theorem Run.isOpen_iff
    (run : Run trace state) (id : Nat) :
    isOpen id trace = true ↔
      ∃ session ∈ state.sessions, session.id = id ∧ session.live := by
  induction run with
  | new => simp [isOpen, State.new]
  | @step trace state next action response before stepped same =>
      cases action with
      | begin other =>
          simp only [MemoryStore.step] at stepped
          split at stepped
          · cases stepped
          · cases stepped
            simp [isOpen, same]
      | get other key
      | scan other range order =>
          obtain ⟨found, _, answered⟩ := Option.bind_eq_some_iff.mp stepped
          cases answered
          exact same
      | put other key value
      | delete other key =>
          obtain ⟨found, isLive, answered⟩ := Option.bind_eq_some_iff.mp stepped
          obtain ⟨inState, rfl, live⟩ := State.of_live? isLive
          cases answered
          refine same.trans (Iff.trans ?_ (State.exists_replace inState (by rfl) id))
          split
          · next isHere => exact iff_of_true ⟨found, inState, isHere, live⟩ live
          · rfl
      | commit other
      | rollback other =>
          obtain ⟨found, isLive, answered⟩ := Option.bind_eq_some_iff.mp stepped
          obtain ⟨inState, rfl, live⟩ := State.of_live? isLive
          cases answered
          refine Iff.trans ?_ (State.exists_replace inState (by rfl) id)
          rw [isOpen, Bool.and_eq_true, decide_eq_true_eq, same]
          split
          · next isHere =>
              exact iff_of_false (fun both => both.1 isHere) Bool.false_ne_true
          · next elsewhere => exact and_iff_right elsewhere
      | drop other =>
          obtain ⟨found, _, answered⟩ := Option.bind_eq_some_iff.mp stepped
          cases answered
          rw [isOpen, Bool.and_eq_true, decide_eq_true_eq, same]
          simp only [mem_filter, decide_eq_true_eq]
          constructor
          · rintro ⟨differs, session, inState, rfl, live⟩
            exact ⟨session, ⟨inState, differs.symm⟩, rfl, live⟩
          · rintro ⟨session, ⟨inState, differs⟩, rfl, live⟩
            exact ⟨differs.symm, session, inState, rfl, live⟩

/-- The transaction under an open handle is found. -/
theorem Run.exists_live
    (run : Run trace state)
    (opened : isOpen id trace = true) :
    ∃ session ∈ state.sessions, session.id = id ∧ session.live ∧
      state.live? id = some session := by
  obtain ⟨open', inState, sameId, live⟩ := (run.isOpen_iff id).mp opened
  have isSome : (state.live? id).isSome = true :=
    find?_isSome.mpr ⟨open', inState, by simp [sameId, live]⟩
  obtain ⟨session, found⟩ := Option.isSome_iff_exists.mp isSome
  obtain ⟨member, sameId, live⟩ := State.of_live? found
  exact ⟨session, member, sameId, live, found⟩

/--
Snapshot isolation.  In every run, a read through an open transaction answers,
and answers from the committed state at the transaction's start overlaid with
the transaction's own writes; a commit is refused exactly when a write set
committed since the start shares a key with the transaction's; and the trimmed
history still holds the record of every commit since the start of every
transaction that is not dropped.
-/
theorem run_isolated
    {trace : Trace} {state : State} (run : Run trace state) :
    (∀ id, isOpen id trace = true → (∀ key, step state (.get id key) =
        some (state, .value (expectedView id trace)[key]?)) ∧
      (∀ range order, step state (.scan id range order) =
        some (state, .items (entriesIn (expectedView id trace) range order))) ∧
      ∃ next result, step state (.commit id) = some (next, .commit result)) ∧
    (∀ id key next response, step state (.get id key) = some (next, response) →
      isOpen id trace = true ∧ response = .value (expectedView id trace)[key]?) ∧
    (∀ id range order next response,
      step state (.scan id range order) = some (next, response) →
      isOpen id trace = true ∧
        response = .items (entriesIn (expectedView id trace) range order)) ∧
    (∀ id next response, step state (.commit id) = some (next, response) →
      (response = .commit .transactionConflict ↔ ∃ writes ∈ commitsSince id trace,
          ∃ key, key ∈ writesOf id trace ∧ key ∈ writes)) ∧
    (∀ session ∈ state.sessions, ∀ writes ∈ commitsSince session.id trace,
        ∃ version, session.transaction.startedAt < version ∧
          (version, writes.keys) ∈ state.shared.history) ∧
    state.shared.committed = committedAfter trace := by
  have kept := run.invariant
  refine ⟨?_, ?_, ?_, ?_, ?_, kept.committed⟩
  · intro id opened
    obtain ⟨session, member, sameId, live, found⟩ := run.exists_live opened
    subst sameId
    refine ⟨fun key => ?_, fun range order => ?_, ?_⟩
    · rw [step, found, ← kept.view member live, ← Transaction.get_eq]
      rfl
    · rw [step, found, ← kept.view member live, ← Transaction.scan_eq]
      rfl
    · rw [step, found]
      exact ⟨_, _, rfl⟩
  · intro id key next response stepped
    obtain ⟨session, found, answered⟩ := Option.bind_eq_some_iff.mp stepped
    obtain ⟨member, sameId, live⟩ := State.of_live? found
    subst sameId
    cases answered
    rw [Transaction.get_eq, kept.view member live]
    exact ⟨(run.isOpen_iff _).mpr ⟨session, member, rfl, live⟩, rfl⟩
  · intro id range order next response stepped
    obtain ⟨session, found, answered⟩ := Option.bind_eq_some_iff.mp stepped
    obtain ⟨member, sameId, live⟩ := State.of_live? found
    subst sameId
    cases answered
    rw [Transaction.scan_eq, kept.view member live]
    exact ⟨(run.isOpen_iff _).mpr ⟨session, member, rfl, live⟩, rfl⟩
  · intro id next response stepped
    obtain ⟨session, found, answered⟩ := Option.bind_eq_some_iff.mp stepped
    obtain ⟨member, sameId, live⟩ := State.of_live? found
    subst sameId
    rw [← kept.conflicts_iff member live, ← commit_refused_iff]
    have answer : Response.commit
            (MemoryStore.commit state.shared session.transaction).2 =
          response :=
      (Prod.mk.inj (Option.some.inj answered)).2
    rw [← answer, Response.commit.injEq]
  · intro session member writes since
    obtain ⟨version, recorded, later⟩ := ((kept.sessions session member).records
      writes.keys).mpr ⟨writes, since, rfl⟩
    exact ⟨version, later, recorded⟩

/-- Carry out a list of calls on an empty store. -/
def run? (actions : List Action) : Option (Trace × State) := actions.foldlM
    (fun (trace, state) action => do
      let (next, response) ← step state action
      return ((action, response) :: trace, next))
    ([], State.new)

theorem run_of_foldlM
    {actions : List Action} {past trace : Trace} {before state : State}
    (run : Run past before)
    (ran : actions.foldlM (fun ((trace, state) : Trace × State) action => do
            let (next, response) ← step state action
            return ((action, response) :: trace, next))
          (past, before) =
        some (trace, state)) :
    Run trace state := by
  induction actions generalizing past before with
  | nil =>
      cases ran
      exact run
  | cons action rest ih =>
      rw [foldlM_cons] at ran
      obtain ⟨⟨past', before'⟩, first, later⟩ := Option.bind_eq_some_iff.mp ran
      obtain ⟨⟨next, response⟩, stepped, made⟩ := Option.bind_eq_some_iff.mp first
      cases made
      exact ih (run.step stepped) later

/-- Two writers that overlap, the second up to its reads and its commit. -/
def overlappingWriters : List Action :=
  [.begin 2, .put 2 [8] [3], .commit 2, .drop 2, .begin 0, .begin 1,
    .put 0 [7] [1], .put 0 [8] [4], .put 1 [7] [2], .commit 0, .drop 0]

/--
The first writer of a key has committed and been dropped.  The second still
reads its own write and what was committed before it began.  The record of the
first survives the trimming because the second runs, and it is refused.
-/
theorem overlappingWriters_isolated :
    ∃ trace state next, run? overlappingWriters = some (trace, state) ∧
      step state (.get 1 [7]) = some (state, .value (some [2])) ∧
      step state (.get 1 [8]) = some (state, .value (some [3])) ∧
      step state (.commit 1) = some (next, .commit .transactionConflict) ∧
      ∃ writes ∈ commitsSince 1 trace,
        ∃ key, key ∈ writesOf 1 trace ∧ key ∈ writes := by
  have answers :
      ((run? overlappingWriters).bind (fun ran => (step ran.2 (.commit 1)).map
        (fun after => (isOpen 1 ran.1, (expectedView 1 ran.1)[([7] : Bytes)]?,
          (expectedView 1 ran.1)[([8] : Bytes)]?, after.2)))) =
        some (true, some [2], some [3], .commit .transactionConflict) := by
    decide
  obtain ⟨⟨trace, state⟩, ran, answers⟩ := Option.bind_eq_some_iff.mp answers
  obtain ⟨⟨next, response⟩, stepped, answers⟩ := Option.map_eq_some_iff.mp answers
  simp only [Prod.mk.injEq] at answers
  obtain ⟨opened, own, before, rfl⟩ := answers
  have run := run_of_foldlM Run.new ran
  obtain ⟨reads, -, -, refused, -⟩ := run_isolated run
  obtain ⟨read, -⟩ := reads 1 opened
  exact ⟨trace, state, next, ran, own ▸ read [7], before ▸ read [8], stepped,
    (refused 1 next _ stepped).mp rfl⟩

end SlateOrm.MemoryStore
