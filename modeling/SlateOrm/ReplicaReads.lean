import SlateOrm.LabelledRun
import SlateOrm.TupleCodec

namespace SlateOrm

open List

/-!
# Reads across replicas

A pool routes each read to a replica that may serve it, or to the writer.  A
session keeps the highest token of its commits and asks for views that have
reached it, so its reads see its own writes.  The watermark does not take in
what the reads have seen: a read that a view ahead of the watermark has served
may be followed by one that an older view serves.
-/

namespace ReplicaPool

/-! ## The pool -/

/-- A store that can be read. -/
structure Replica where
  name : String
  /-- Whether it can tell which sequence it has reached. -/
  tracked : Bool
  deriving DecidableEq, Repr

/-- Replicas, and the writer as the one to fall back to. -/
structure Pool where
  replicas : List Replica
  writer : Option Replica
  tenantAffinity : Bool
  deriving DecidableEq, Repr

/-- A store of a pool. -/
inductive StoreId where
  | replica (position : Nat)
  | writer
  deriving DecidableEq, Repr

/-- Whether a store can tell which sequence it has reached. -/
def Pool.tracks (pool : Pool) : StoreId → Bool
  | .replica position => pool.replicas[position]?.any Replica.tracked
  | .writer => pool.writer.any Replica.tracked

/-- The freshness a caller needs from a read. -/
inductive Freshness where
  | any
  | atLeast (token : Nat)
  | latest
  deriving DecidableEq, Repr

/-! ## Where a read goes -/

/-- Mix every bit of a hash into every other. -/
def avalanche (hash : UInt64) : UInt64 :=
  let hash := hash ^^^ (hash >>> 33)
  let hash := hash * 0xff51afd7ed558ccd
  let hash := hash ^^^ (hash >>> 33)
  let hash := hash * 0xc4ceb9fe1a85ec53
  hash ^^^ (hash >>> 33)

/-- How well a key is placed on a replica. -/
def rendezvousScore (key : Bytes) (replica : String) : UInt64 :=
  avalanche ((key ++ [0xff] ++ utf8 replica).foldl
    (fun hash (byte : UInt8) => (hash ^^^ byte.toUInt64) * 0x100000001b3)
    0xcbf29ce484222325)

/-- Whether one replica is not behind another in the order for a key. -/
def ranksBefore (key : Bytes) (first second : Replica × Nat) : Bool :=
  let score := rendezvousScore key first.1.name
  let other := rendezvousScore key second.1.name
  other < score || (other = score && compare first.1.name second.1.name ≠ .gt)

/-- The replicas in descending order of preference, and the counter after. -/
def preferenceOrder (pool : Pool) (next : UInt64)
    (affinity : Option Value) : List Nat × UInt64 :=
  if pool.replicas.isEmpty then
    ([], next)
  else
    match affinity.filter (fun _ => pool.tenantAffinity) with
    | some tenant =>
        ((pool.replicas.zipIdx.mergeSort
          (ranksBefore (encode [tenant]))).map Prod.snd, next)
    | none =>
        ((List.range pool.replicas.length).map (fun offset =>
          (next + UInt64.ofNat offset).toNat % pool.replicas.length),
          next + 1)

/-- The sequence that a store reports. -/
def visibleSequence (pool : Pool) (visible : StoreId → Nat)
    (store : StoreId) : Option Nat :=
  if pool.tracks store then some (visible store) else none

/-- Whether a store is known to have reached a token. -/
def satisfies (pool : Pool) (visible : StoreId → Nat) (token : Nat)
    (store : StoreId) : Bool :=
  (visibleSequence pool visible store).any (fun reached => token ≤ reached)

/-- The last of the stores with the greatest key. -/
def maxByKey (key : StoreId → Nat) : List StoreId → Option StoreId :=
  List.foldl (fun best store =>
    match best with
    | none => some store
    | some found => if key found ≤ key store then some store else some found)
    none

/-- How far the routing of a read has come. -/
inductive Routing where
  | chosen (store : StoreId)
  /-- It waits for a store to reach a token. -/
  | waits (store : StoreId) (token : Nat)
  | refused (reason : String)
  deriving DecidableEq, Repr

/-- The writer, or a refusal. -/
def orWriter (pool : Pool) (reason : String) : Routing :=
  if pool.writer.isSome then .chosen .writer else .refused reason

/-- No replica has caught up in time. -/
def fallBack (pool : Pool) (visible : StoreId → Nat) (token : Nat) :
    Routing :=
  if pool.writer.isSome then
    match visibleSequence pool visible .writer with
    | none => .chosen .writer
    | some reached => if token ≤ reached then .chosen .writer else .waits .writer token
  else
    .refused "no replica caught up in time and no writer is in the pool"

/-- Choose the store that will serve a read, up to the first wait. -/
def route (pool : Pool) (visible : StoreId → Nat) (next : UInt64)
    (freshness : Freshness) (affinity : Option Value) : Routing × UInt64 :=
  match freshness with
  | .latest =>
      (orWriter pool "the read requires the writer, but no writer is in the pool", next)
  | .any =>
      let (order, after) := preferenceOrder pool next affinity
      match order with
      | [] => (orWriter pool "the pool has no replicas and no writer", after)
      | first :: _ => (.chosen (.replica first), after)
  | .atLeast token =>
      let (order, after) := preferenceOrder pool next affinity
      let stores := order.map StoreId.replica
      if stores.isEmpty then
        (orWriter pool "the pool has no replicas and no writer", after)
      else
        match stores.find? (satisfies pool visible token) with
        | some store => (.chosen store, after)
        | none =>
            match maxByKey (fun store =>
                (visibleSequence pool visible store).getD 0) stores with
            | none => (fallBack pool visible token, after)
            | some closest => (.waits closest token, after)

/-- A wait is over: the store has got there, or it has not. -/
def afterWait (pool : Pool) (visible : StoreId → Nat) (store : StoreId)
    (token : Nat) (success : Bool) : Routing :=
  match store with
  | .replica _ => if success then .chosen store else fallBack pool visible token
  | .writer =>
      if success then
        .chosen .writer
      else
        .refused "the writer did not catch up in time"

/-! ## Sessions -/

/-- What a session has seen: the token of a commit, or the view of a read. -/
inductive Entry where
  | commit (sequence : Nat)
  | read (sequence : Nat)
  deriving DecidableEq, Repr

def Entry.sequence : Entry → Nat
  | commit sequence => sequence
  | read sequence => sequence

/-- A session that threads one watermark through its reads. -/
structure Session where
  /-- The highest token seen. -/
  watermark : Option Nat := none
  log : List Entry := []
  reading : Option Routing := none
  deriving DecidableEq, Repr

/-- Record a token, keeping the highest seen. -/
def observe (watermark : Option Nat) (token : Nat) : Option Nat :=
  match watermark with
  | none => some token
  | some current => if token ≤ current then some current else some token

/-- The freshness a read asks for. -/
def freshness (watermark : Option Nat) : Freshness :=
  match watermark with
  | none => .any
  | some token => .atLeast token

/-- The stores' progress, the round-robin counter and the sessions. -/
structure State where
  visible : StoreId → Nat
  next : UInt64
  sessions : Nat → Session

/-- A pool that no one has used. -/
def State.new (visible : StoreId → Nat) : State where
  visible := visible
  next := 0
  sessions _ := {}

/-- Replace a session. -/
def State.set (state : State) (id : Nat) (session : Session) : State :=
  { state with
    sessions := fun other => if other = id then session else state.sessions other }

/-- What happens between two awaits. -/
inductive Event where
  /-- A store's visible sequence grows. -/
  | progress (store : StoreId) (sequence : Nat)
  /-- A session commits, and observes the token, if there is one. -/
  | commit (id : Nat) (token : Option Nat)
  | read (id : Nat) (affinity : Option Value)
  /-- A wait is over; it succeeds only when the store has got there. -/
  | waited (id : Nat) (success : Bool)
  /-- The chosen store opens its view, or fails to. -/
  | opened (id : Nat) (success : Bool)

/-- Take one step; a session does one thing at a time. -/
def step (pool : Pool) (state : State) : Event → Option State
  | .progress store sequence =>
      if state.visible store ≤ sequence then
        some { state with
          visible := fun other =>
            if other = store then sequence else state.visible other }
      else
        none
  | .commit id token =>
      let session := state.sessions id
      match session.reading, token with
      | some _, _ => none
      | none, none => some state
      | none, some token =>
          some (state.set id { session with
            watermark := observe session.watermark token
            log := session.log ++ [.commit token] })
  | .read id affinity =>
      let session := state.sessions id
      match session.reading with
      | some _ => none
      | none =>
          let (routing, next) :=
            route pool state.visible state.next (freshness session.watermark) affinity
          some { state.set id { session with reading := some routing } with
            next := next }
  | .waited id success =>
      let session := state.sessions id
      match session.reading with
      | some (.waits store token) =>
          if success && !satisfies pool state.visible token store then
            none
          else
            some (state.set id { session with
              reading := some (afterWait pool state.visible store token success) })
      | _ => none
  | .opened id success =>
      let session := state.sessions id
      match session.reading with
      | some (.chosen store) =>
          if success then
            some (state.set id { session with
              log := session.log ++ [.read (state.visible store)]
              reading := none })
          else
            some (state.set id { session with reading := none })
      | some (.refused _) => some (state.set id { session with reading := none })
      | _ => none

/-! ## Monotonic reads -/

/-- A read saw all that the session had seen before it. -/
def Entry.Covers (earlier later : Entry) : Prop :=
  ∀ sequence, later = .read sequence → earlier.sequence ≤ sequence

/-- Every read of every session saw all that the session had seen before it. -/
def MonotonicReads (pool : Pool) (visible : StoreId → Nat)
    (events : List Event) : Prop :=
  ∀ front rest state, events = front ++ rest →
    LabelledRun (step pool) (.new visible) front state →
      ∀ id, (state.sessions id).log.Pairwise Entry.Covers

/--
The store a read goes to without waiting: the first in order of preference that
is known to have reached the watermark, and the writer of a pool without
replicas.
-/
def preferred (pool : Pool) (state : State) (watermark : Option Nat)
    (affinity : Option Value) : Option StoreId :=
  let stores := (preferenceOrder pool state.next affinity).1.map .replica
  if stores.isEmpty then
    if pool.writer.isSome then some .writer else none
  else
    match watermark with
    | none => stores.head?
    | some token => stores.find? (satisfies pool state.visible token)

/-- A sequence is one that the watermark asks for. -/
def Asked (watermark : Option Nat) (sequence : Nat) : Prop :=
  ∃ token, watermark = some token ∧ sequence ≤ token

/-- A read that falls back to the writer is not behind a token. -/
def WriterKeeps (pool : Pool) (visible : StoreId → Nat) (token : Nat) : Prop :=
  token ≤ visible .writer ∨ ∀ writer ∈ pool.writer, writer.tracked = true

/--
A session asks for a read when the watermark has taken in its earlier reads, or
the preferred store has reached them, and when no store serves the watermark on
trust.
-/
structure CoveredRead (pool : Pool) (state : State) (session : Session)
    (affinity : Option Value) : Prop where
  reads : ∀ sequence, .read sequence ∈ session.log → Asked session.watermark sequence ∨
      ∃ store, preferred pool state session.watermark affinity = some store ∧
        sequence ≤ state.visible store
  writer : ∀ token, session.watermark = some token →
    (pool.replicas = [] → token ≤ state.visible .writer) ∧
      (preferred pool state session.watermark affinity = none →
        WriterKeeps pool state.visible token)

/-- A step is not a read that may go back behind an earlier one. -/
def Covered (pool : Pool) (state : State) (event : Event) : Prop :=
  ∀ id affinity, event = .read id affinity →
    CoveredRead pool state (state.sessions id) affinity

/-! ## What routing promises -/

/-- A routing leads to a view that has reached all the entries of a log. -/
def Promises (pool : Pool) (visible : StoreId → Nat) (log : List Entry) : Routing → Prop
  | .chosen store => ∀ entry ∈ log, entry.sequence ≤ visible store
  | .waits store token =>
      (∀ entry ∈ log, entry.sequence ≤ token) ∧
        (store = .writer ∨ WriterKeeps pool visible token)
  | .refused _ => True

/-- What holds of a session between two steps. -/
structure Session.Sound (pool : Pool) (visible : StoreId → Nat)
    (session : Session) : Prop where
  monotonic : session.log.Pairwise Entry.Covers
  commits : ∀ token, .commit token ∈ session.log → Asked session.watermark token
  reading : ∀ routing, session.reading = some routing →
    Promises pool visible session.log routing

/-- What holds between two steps. -/
def State.Sound (pool : Pool) (state : State) : Prop :=
  ∀ id, (state.sessions id).Sound pool state.visible

variable {visible : StoreId → Nat} {pool : Pool} {store : StoreId} {token : Nat}
  {log : List Entry} {affinity : Option Value} {watermark : Option Nat}
  {state : State} {session : Session}

theorem le_of_satisfies
    (satisfied : satisfies pool visible token store = true) :
    token ≤ visible store := by
  unfold satisfies visibleSequence at satisfied
  split at satisfied
  · simpa using satisfied
  · simp at satisfied

/-- The fallback keeps what the writer keeps. -/
theorem promises_fallBack
    (within : ∀ entry ∈ log, entry.sequence ≤ token)
    (keeps : WriterKeeps pool visible token) :
    Promises pool visible log (fallBack pool visible token) := by
  unfold fallBack
  cases isWriter : pool.writer with
  | none => trivial
  | some writer =>
      have reached : visibleSequence pool visible .writer = none →
          token ≤ visible .writer := by
        intro untracked
        rcases keeps with already | tracked
        · exact already
        · have isTracked := tracked writer isWriter
          simp [visibleSequence, Pool.tracks, isWriter, isTracked] at untracked
      simp only [Option.isSome_some, if_true]
      split
      · rename_i untracked
        intro entry member
        exact Nat.le_trans (within entry member) (reached untracked)
      · rename_i sequence reports
        have isVisible : sequence = visible .writer := by
          unfold visibleSequence at reports
          split at reports
          · exact (Option.some.inj reports).symm
          · cases reports
        split
        · rename_i enough
          intro entry member
          exact Nat.le_trans (within entry member) (isVisible ▸ enough)
        · exact ⟨within, Or.inl rfl⟩

theorem length_preferenceOrder
    (pool : Pool) (next : UInt64) (affinity : Option Value) :
    (preferenceOrder pool next affinity).1.length = pool.replicas.length := by
  unfold preferenceOrder
  split
  · rename_i empty
    simp [isEmpty_iff.mp empty]
  · split <;> simp

/-- How a read is routed. -/
inductive Routed (pool : Pool) (state : State) (watermark : Option Nat)
    (affinity : Option Value) : Routing → Prop where
  /-- The preferred store is known to have reached the watermark. -/
  | preferred {store : StoreId}
      (isPreferred : preferred pool state watermark affinity = some store)
      (enough : ∀ token, watermark = some token → token ≤ state.visible store) :
      Routed pool state watermark affinity (.chosen store)
  /-- The writer of a pool without replicas is not asked what it has reached. -/
  | onlyWriter (isPreferred : preferred pool state watermark affinity = some .writer)
      (alone : pool.replicas = []) :
      Routed pool state watermark affinity (.chosen .writer)
  | waits {token : Nat} {closest : StoreId} (isWatermark : watermark = some token)
      (isNone : preferred pool state watermark affinity = none) :
      Routed pool state watermark affinity (.waits closest token)
  | fallBack {token : Nat} (isWatermark : watermark = some token)
      (isNone : preferred pool state watermark affinity = none) :
      Routed pool state watermark affinity (fallBack pool state.visible token)
  | refused {reason : String} : Routed pool state watermark affinity (.refused reason)

theorem routed_orWriter
    (isEmpty : (preferenceOrder pool state.next affinity).1 = [])
    (reason : String) :
    Routed pool state watermark affinity (orWriter pool reason) := by
  have alone : pool.replicas = [] := by
    rw [← length_eq_zero_iff,
      ← length_preferenceOrder pool state.next affinity, isEmpty]
    rfl
  unfold orWriter
  split
  · rename_i isWriter
    exact .onlyWriter (by simp [preferred, isEmpty, isWriter]) alone
  · exact .refused

/-- A read that asks for the watermark is routed in one of these ways. -/
theorem routed_route
    (pool : Pool) (state : State) (watermark : Option Nat)
    (affinity : Option Value) :
    Routed pool state watermark affinity
      (route pool state.visible state.next (freshness watermark) affinity).1 := by
  cases watermark with
  | none =>
      cases isOrder : (preferenceOrder pool state.next affinity).1 with
      | nil =>
          simp only [freshness, route, isOrder]
          exact routed_orWriter isOrder _
      | cons position rest =>
          simp only [freshness, route, isOrder]
          refine .preferred ?_ ?_
          · simp [preferred, isOrder]
          · rintro token ⟨⟩
  | some token =>
      simp only [freshness, route]
      split
      · rename_i isEmpty
        exact routed_orWriter (by simpa using isEmpty) _
      · rename_i notEmpty
        have isPreferred : preferred pool state (some token) affinity =
            ((preferenceOrder pool state.next affinity).1.map
              StoreId.replica).find? (satisfies pool state.visible token) :=
          if_neg notEmpty
        split
        · rename_i store found
          refine .preferred (isPreferred.trans found) ?_
          rintro _ ⟨⟩
          exact le_of_satisfies (find?_some found)
        · rename_i notFound
          split
          · exact .fallBack rfl (isPreferred.trans notFound)
          · exact .waits rfl (isPreferred.trans notFound)

/-- A covered read is routed to a view that has reached what was seen. -/
theorem promises_of_routed
    {routing : Routing}
    (routed : Routed pool state session.watermark affinity routing)
    (sound : session.Sound pool state.visible)
    (covered : CoveredRead pool state session affinity) :
    Promises pool state.visible session.log routing := by
  -- A preferred store that has reached the watermark has reached the rest.
  have reached : ∀ store, preferred pool state session.watermark affinity = some store →
        (∀ token, session.watermark = some token → token ≤ state.visible store) →
          ∀ entry ∈ session.log, entry.sequence ≤ state.visible store := by
    intro store isPreferred enough entry member
    have ofAsked : Asked session.watermark entry.sequence →
        entry.sequence ≤ state.visible store := by
      rintro ⟨token, isToken, le⟩
      exact Nat.le_trans le (enough token isToken)
    cases entry with
    | commit token => exact ofAsked (sound.commits token member)
    | read sequence =>
        rcases covered.reads sequence member with asked | ⟨other, same, le⟩
        · exact ofAsked asked
        · rw [isPreferred] at same
          cases same
          exact le
  -- Without a preferred store the watermark is all there is to ask for.
  have within : ∀ token, session.watermark = some token →
      preferred pool state session.watermark affinity = none →
        ∀ entry ∈ session.log, entry.sequence ≤ token := by
    intro token isToken isNone entry member
    have asked : Asked session.watermark entry.sequence := by
      cases entry with
      | commit token => exact sound.commits token member
      | read sequence =>
          rcases covered.reads sequence member with asked | ⟨_, same, _⟩
          · exact asked
          · rw [isNone] at same
            cases same
    obtain ⟨_, same, le⟩ := asked
    rw [isToken] at same
    cases same
    exact le
  cases routed with
  | preferred isPreferred enough => exact reached _ isPreferred enough
  | onlyWriter isPreferred alone =>
      exact reached _ isPreferred
        (fun token isToken => (covered.writer token isToken).1 alone)
  | waits isWatermark isNone =>
      exact ⟨within _ isWatermark isNone,
        Or.inr ((covered.writer _ isWatermark).2 isNone)⟩
  | fallBack isWatermark isNone =>
      exact promises_fallBack (within _ isWatermark isNone)
        ((covered.writer _ isWatermark).2 isNone)
  | refused => trivial

theorem Promises.mono
    {before after : StoreId → Nat} {routing : Routing}
    (grows : ∀ store, before store ≤ after store)
    (promises : Promises pool before log routing) :
    Promises pool after log routing := by
  cases routing with
  | chosen store =>
      intro entry member
      exact Nat.le_trans (promises entry member) (grows store)
  | waits store token =>
      refine ⟨promises.1, promises.2.imp_right ?_⟩
      exact Or.imp_left (fun reached => Nat.le_trans reached (grows .writer))
  | refused reason => trivial

theorem promises_afterWait
    {success : Bool} (promises : Promises pool visible log (.waits store token))
    (honest : success = true → satisfies pool visible token store = true) :
    Promises pool visible log (afterWait pool visible store token success) := by
  obtain ⟨within, keeps⟩ := promises
  have arrived : success = true → ∀ entry ∈ log, entry.sequence ≤ visible store := by
    intro succeeded entry member
    exact Nat.le_trans (within entry member) (le_of_satisfies (honest succeeded))
  cases store with
  | replica position =>
      unfold afterWait
      dsimp only
      split
      · rename_i succeeded
        exact arrived succeeded
      · refine promises_fallBack within (keeps.resolve_left ?_)
        rintro ⟨⟩
  | writer =>
      unfold afterWait
      dsimp only
      split
      · rename_i succeeded
        exact arrived succeeded
      · trivial

theorem State.Sound.set
    (sound : state.Sound pool)
    {id : Nat}
    (isSound : session.Sound pool state.visible) :
    (state.set id session).Sound pool := by
  intro other
  by_cases same : other = id
  · simpa [State.set, same] using isSound
  · simpa [State.set, same] using sound other

theorem asked_observe
    {sequence : Nat} (token : Nat)
    (asked : Asked watermark sequence ∨ sequence = token) :
    Asked (observe watermark token) sequence := by
  cases watermark with
  | none =>
      rcases asked with ⟨_, ⟨⟩, _⟩ | rfl
      exact ⟨sequence, rfl, Nat.le_refl _⟩
  | some current =>
      unfold observe
      dsimp only
      split
      · rename_i le
        rcases asked with ⟨_, ⟨⟩, within⟩ | rfl
        · exact ⟨current, rfl, within⟩
        · exact ⟨current, rfl, le⟩
      · rename_i less
        rcases asked with ⟨_, ⟨⟩, within⟩ | rfl
        · exact ⟨token, rfl, Nat.le_trans within (Nat.le_of_not_le less)⟩
        · exact ⟨sequence, rfl, Nat.le_refl _⟩

theorem Session.Sound.commit
    (sound : session.Sound pool visible)
    (idle : session.reading = none)
    (token : Nat) :
    Session.Sound pool visible { session with
      watermark := observe session.watermark token
      log := session.log ++ [.commit token] } := by
  refine ⟨?_, ?_, ?_⟩
  · refine pairwise_append.mpr ⟨sound.monotonic, pairwise_singleton _ _, ?_⟩
    intro earlier _ later isLater sequence isRead
    rw [mem_singleton.mp isLater] at isRead
    cases isRead
  · intro other member
    refine asked_observe token ?_
    rcases mem_append.mp member with older | isNew
    · exact Or.inl (sound.commits other older)
    · cases mem_singleton.mp isNew
      exact Or.inr rfl
  · intro routing isReading
    rw [idle] at isReading
    cases isReading

theorem Session.Sound.read
    (sound : session.Sound pool visible)
    (isReading : session.reading = some (.chosen store)) :
    Session.Sound pool visible { session with
      log := session.log ++ [.read (visible store)]
      reading := none } := by
  have promised : ∀ entry ∈ session.log, entry.sequence ≤ visible store :=
    sound.reading _ isReading
  refine ⟨?_, ?_, ?_⟩
  · refine pairwise_append.mpr ⟨sound.monotonic, pairwise_singleton _ _, ?_⟩
    intro earlier member later isLater sequence isRead
    rw [mem_singleton.mp isLater] at isRead
    cases isRead
    exact promised earlier member
  · intro other member
    rcases mem_append.mp member with older | isNew
    · exact sound.commits other older
    · cases mem_singleton.mp isNew
  · rintro routing ⟨⟩

theorem Session.Sound.route
    (sound : session.Sound pool visible)
    {reading : Option Routing}
    (promises : ∀ routing, reading = some routing →
      Promises pool visible session.log routing) :
    Session.Sound pool visible { session with reading := reading } :=
  ⟨sound.monotonic, sound.commits, promises⟩

/-- Every covered step keeps the sessions sound. -/
theorem sound_of_step
    {state next : State} {event : Event}
    (stepped : step pool state event = some next)
    (sound : state.Sound pool)
    (covered : Covered pool state event) :
    next.Sound pool := by
  cases event with
  | progress store sequence =>
      simp only [step] at stepped
      split at stepped
      · rename_i grows
        cases stepped
        intro id
        refine ⟨(sound id).monotonic, (sound id).commits, ?_⟩
        intro routing isReading
        refine ((sound id).reading routing isReading).mono ?_
        intro other
        dsimp only
        split
        · rename_i same
          rw [same]
          exact grows
        · exact Nat.le_refl _
      · cases stepped
  | commit id token =>
      simp only [step] at stepped
      split at stepped
      · cases stepped
      · cases stepped
        exact sound
      · rename_i observed idle
        cases stepped
        exact sound.set ((sound id).commit idle observed)
  | read id affinity =>
      simp only [step] at stepped
      split at stepped
      · cases stepped
      · cases stepped
        have isSound : (state.set id { state.sessions id with
            reading := some (ReplicaPool.route pool state.visible state.next
              (freshness (state.sessions id).watermark) affinity).1 }).Sound
                pool := by
          refine sound.set ((sound id).route ?_)
          rintro routing ⟨⟩
          exact promises_of_routed (routed_route _ _ _ _) (sound id)
            (covered id affinity rfl)
        exact isSound
  | waited id success =>
      simp only [step] at stepped
      split at stepped
      · rename_i store token isReading
        split at stepped
        · cases stepped
        · rename_i honest
          cases stepped
          refine sound.set ((sound id).route ?_)
          rintro routing ⟨⟩
          refine promises_afterWait ((sound id).reading _ isReading) ?_
          intro succeeded
          simpa [succeeded] using honest
      · cases stepped
  | opened id success =>
      simp only [step] at stepped
      have stops : (state.set id
          { state.sessions id with reading := none }).Sound pool := by
        refine sound.set ((sound id).route ?_)
        rintro routing ⟨⟩
      split at stepped
      · rename_i store isReading
        split at stepped
        · cases stepped
          exact sound.set ((sound id).read isReading)
        · cases stepped
          exact stops
      · cases stepped
        exact stops
      · cases stepped

/-- Reads are monotonic in every run whose reads are all covered. -/
theorem monotonicReads_of_run
    {pool : Pool} {visible : StoreId → Nat} {events : List Event}
    (along : LabelledRun.Along (step pool) (Covered pool) (.new visible) events) :
    MonotonicReads pool visible events := by
  intro front rest state parts reached id
  have soundNew : (State.new visible).Sound pool := by
    intro id
    refine ⟨.nil, ?_, ?_⟩
    · rintro token ⟨⟩
    · rintro routing ⟨⟩
  have sound : state.Sound pool := by
    refine reached.holds_of_along ?_ (along.earlier parts) soundNew
    intro before event after stepped sound covered
    exact sound_of_step stepped sound covered
  exact (sound id).monotonic

/-! ## Replicas at different lag -/

/-- Two replicas and no writer. -/
def twoReplicas : Pool where
  replicas := [⟨"first", true⟩, ⟨"second", true⟩]
  writer := none
  tenantAffinity := true

/-- The first replica is ahead of the second. -/
def laggingVisible : StoreId → Nat
  | .replica 0 => 5
  | _ => 3

/-- A session reads twice. -/
def readsTwice : List Event :=
  [.read 0 none, .opened 0 true, .read 0 none, .opened 0 true]

/-- A session reads, commits at a later sequence, and reads again. -/
def commitsBetween : List Event := [.read 0 none, .opened 0 true, .commit 0 (some 6),
    .progress (.replica 1) 7, .read 0 none, .opened 0 true]

/-- A commit between two reads keeps them in order. -/
theorem monotonicReads_commitsBetween :
    MonotonicReads twoReplicas laggingVisible commitsBetween := by
  refine monotonicReads_of_run ?_
  refine (LabelledRun.along_cons rfl).mpr ⟨?_, ?_⟩
  · rintro _ _ ⟨⟩
    refine ⟨?_, ?_⟩
    · rintro sequence ⟨⟩
    · rintro token ⟨⟩
  refine (LabelledRun.along_cons rfl).mpr ⟨by rintro _ _ ⟨⟩, ?_⟩
  refine (LabelledRun.along_cons rfl).mpr ⟨by rintro _ _ ⟨⟩, ?_⟩
  refine (LabelledRun.along_cons rfl).mpr ⟨by rintro _ _ ⟨⟩, ?_⟩
  refine (LabelledRun.along_cons rfl).mpr ⟨?_, ?_⟩
  · rintro _ _ ⟨⟩
    refine ⟨?_, ?_⟩
    · intro sequence member
      have inLog : Entry.read sequence ∈ [.read 5, .commit 6] := member
      have isFive : sequence = 5 := by simpa using inLog
      exact Or.inl ⟨6, rfl, by omega⟩
    · rintro token ⟨⟩
      refine ⟨by rintro ⟨⟩, ?_⟩
      intro _
      exact Or.inr (by rintro _ ⟨⟩)
  refine (LabelledRun.along_cons rfl).mpr ⟨by rintro _ _ ⟨⟩, ?_⟩
  exact LabelledRun.along_nil _

/-- Round robin takes the second read of a session back behind its first. -/
theorem not_monotonicReads_readsTwice :
    ¬∀ (pool : Pool) (visible : StoreId → Nat) (events : List Event),
      MonotonicReads pool visible events := by
  intro always
  have taken : (readsTwice.foldlM (step twoReplicas)
      (.new laggingVisible)).isSome = true := by
    decide
  have run : LabelledRun (step twoReplicas) (.new laggingVisible) readsTwice
      ((readsTwice.foldlM (step twoReplicas) (.new laggingVisible)).get taken) :=
    .of_foldlM (Option.eq_some_of_isSome _)
  have monotonic := always twoReplicas laggingVisible readsTwice readsTwice []
    _ (append_nil _).symm run 0
  have isLog : (((readsTwice.foldlM (step twoReplicas)
      (.new laggingVisible)).get (by decide)).sessions 0).log = [.read 5, .read 3] := by
    decide
  rw [isLog] at monotonic
  have covers : Entry.Covers (.read 5) (.read 3) := pairwise_pair.mp monotonic
  exact absurd (covers 3 rfl) (by decide)

end ReplicaPool

end SlateOrm
