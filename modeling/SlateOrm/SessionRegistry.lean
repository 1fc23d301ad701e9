import SlateOrm.LabelledRun
import SlateOrm.OverlayMap

namespace SlateOrm

open Option

/-!
# The registry of open transactions

A head node keeps an entry for each transaction a client has open.  A call to
`begin` tests the limit, spawns the transaction's task and waits until the task
has opened the transaction; only then does it insert the entry.  The task
removes the entry when it has ended, whenever that is.

So the entries are as many as the limit allows, and none outlives its task, in
exactly the runs in which each entry is inserted while there is room for it and
before its task has cleaned up.
-/

namespace Sessions

/-- The handle of a transaction. -/
abbrev Uuid := Nat

/-- A command to a transaction's task. -/
inductive Command where
  | commit
  | rollback
  /-- A read or a write. -/
  | other
  deriving DecidableEq, Repr

/-- How far the task of a transaction has come. -/
inductive Task where
  /-- It waits for the store to open the transaction. -/
  | opening
  | running
  /-- It has returned, and is about to remove its entry. -/
  | ended
  | cleaned
  deriving DecidableEq, Repr

/-- One call to `begin` that passed the limit, and the task it spawned. -/
structure Attempt (Owner : Type) where
  owner : Owner
  /-- Whether the call still waits for its answer. -/
  waiting : Bool
  /-- Whether the task has opened the transaction, once it has told. -/
  answer : Option Bool
  task : Task
  /-- The commands that the task has not taken yet. -/
  commands : List Command
  deriving DecidableEq, Repr

/-- The registry, and every attempt there has been. -/
structure State (Owner : Type) where
  registry : Overlay.Map Uuid Owner
  attempts : Uuid → Option (Attempt Owner)

/-- An empty registry. -/
def State.new {Owner : Type} : State Owner where
  registry := ∅
  attempts _ := none

/-- Replace an attempt. -/
def State.set {Owner : Type} (state : State Owner) (id : Uuid)
    (attempt : Attempt Owner) : State Owner :=
  { state with
    attempts := fun other => if other = id then some attempt else state.attempts other }

/-- What happens between two awaits of a call or a task. -/
inductive Event (Owner : Type) where
  /-- A call with a handle of its own tests the limit. -/
  | begin (id : Uuid) (owner : Owner)
  /-- The store has answered the task. -/
  | opened (id : Uuid) (success : Bool)
  /-- The call goes on with what its task has told it. -/
  | answered (id : Uuid)
  /-- The client goes away while the call waits. -/
  | abandoned (id : Uuid)
  /-- A request sends a command to the task. -/
  | dispatch (id : Uuid) (caller : Owner) (command : Command)
  /-- The task carries out a command, which may find its writer fenced. -/
  | received (id : Uuid) (fenced : Bool)
  /-- Nothing has come for too long. -/
  | idle (id : Uuid)
  /-- No handle to the task is left. -/
  | hungUp (id : Uuid)
  /-- The task removes its own entry. -/
  | cleanedUp (id : Uuid)
  deriving DecidableEq, Repr

variable {Owner : Type} [DecidableEq Owner]

/-- Take one step; a step that cannot be taken now is `none`. -/
def step (maxTransactions : Nat) (state : State Owner) :
    Event Owner → Option (State Owner)
  | .begin id owner =>
      if (state.attempts id).isSome then
        none
      else if maxTransactions ≤ state.registry.size then
        some state
      else
        some (state.set id {
          owner := owner
          waiting := true
          answer := none
          task := .opening
          commands := [] })
  | .opened id success => do
      let attempt ← state.attempts id
      if attempt.task = .opening then
        if success then
          if attempt.waiting then
            some (state.set id
              { attempt with answer := some true, task := .running })
          else
            -- The client gave up between `Begin` and its answer.
            some (state.set id { attempt with task := .ended })
        else
          some (state.set id
            { attempt with answer := some false, task := .ended })
      else
        none
  | .answered id => do
      let attempt ← state.attempts id
      if attempt.waiting then
        match attempt.answer with
        | none => none
        | some true =>
            some { state.set id { attempt with waiting := false } with
              registry := state.registry.insert id attempt.owner }
        | some false => some (state.set id { attempt with waiting := false })
      else
        none
  | .abandoned id => do
      let attempt ← state.attempts id
      if attempt.waiting then
        some (state.set id { attempt with waiting := false })
      else
        none
  | .dispatch id caller command =>
      match state.registry[id]? with
      | none => some state
      | some owner =>
          if owner ≠ caller then
            some state
          else do
            let attempt ← state.attempts id
            if attempt.task = .running then
              some (state.set id
                { attempt with commands := attempt.commands ++ [command] })
            else
              some state
  | .received id fenced => do
      let attempt ← state.attempts id
      if attempt.task = .running then
        match attempt.commands with
        | [] => none
        | .other :: rest =>
            if fenced then
              some (state.set id { attempt with task := .ended })
            else
              some (state.set id { attempt with commands := rest })
        | _ :: _ => some (state.set id { attempt with task := .ended })
      else
        none
  | .idle id => do
      let attempt ← state.attempts id
      if attempt.task = .running ∧ attempt.commands = [] then
        some (state.set id { attempt with task := .ended })
      else
        none
  | .hungUp id => do
      let attempt ← state.attempts id
      if attempt.task = .running ∧ attempt.commands = [] ∧
          attempt.waiting = false ∧ id ∉ state.registry then
        some (state.set id { attempt with task := .ended })
      else
        none
  | .cleanedUp id => do
      let attempt ← state.attempts id
      if attempt.task = .ended then
        some { state.set id { attempt with task := .cleaned } with
          registry := state.registry.erase id }
      else
        none

/-! ## What a step does -/

/-- An attempt goes on without its entry being touched. -/
structure Updates (state : State Owner) (id : Uuid)
    (attempt : Attempt Owner) : Prop where
  /-- A call that no longer waits does not wait again. -/
  waiting : ∀ before, state.attempts id = some before →
    before.waiting = false → attempt.waiting = false
  /-- Only a task that has cleaned up has cleaned up. -/
  task : attempt.task = .cleaned →
    ∃ before, state.attempts id = some before ∧ before.task = .cleaned

/-- What one step does to the registry and the attempts. -/
inductive Moves (state : State Owner) :
    Event Owner → State Owner → Prop where
  | unchanged (event : Event Owner) : Moves state event state
  | updated {id : Uuid} {attempt : Attempt Owner} (event : Event Owner)
      (updates : Updates state id attempt) :
      Moves state event (state.set id attempt)
  | inserted {id : Uuid} {attempt : Attempt Owner}
      (found : state.attempts id = some attempt)
      (waits : attempt.waiting = true)
      (isOpen : attempt.answer = some true) :
      Moves state (.answered id)
        { state.set id { attempt with waiting := false } with
          registry := state.registry.insert id attempt.owner }
  | removed {id : Uuid} {attempt : Attempt Owner}
      (found : state.attempts id = some attempt)
      (ended : attempt.task = .ended) :
      Moves state (.cleanedUp id)
        { state.set id { attempt with task := .cleaned } with
          registry := state.registry.erase id }

omit [DecidableEq Owner] in
theorem updates_of_found
    {state : State Owner} {id : Uuid} {attempt after : Attempt Owner}
    (found : state.attempts id = some attempt)
    (waiting : attempt.waiting = false → after.waiting = false)
    (task : after.task = .cleaned → attempt.task = .cleaned) :
    Updates state id after := by
  refine ⟨?_, fun cleaned => ⟨attempt, found, task cleaned⟩⟩
  intro before isBefore
  rw [found] at isBefore
  cases isBefore
  exact waiting

variable {state next : State Owner} {event : Event Owner}
  {maxTransactions : Nat}

/-- Every step is one of these. -/
theorem moves_of_step
    (stepped : step maxTransactions state event = some next) :
    Moves state event next := by
  cases event with
  | begin id owner =>
      rw [step] at stepped
      split at stepped
      · cases stepped
      · next isNew =>
          split at stepped
          · cases stepped
            exact .unchanged _
          · cases stepped
            refine .updated _ ⟨?_, ?_⟩
            · intro before found
              rw [found] at isNew
              exact absurd rfl isNew
            · rintro ⟨⟩
  | opened id success =>
      obtain ⟨attempt, found, stepped⟩ := bind_eq_some_iff.mp stepped
      split at stepped
      · repeat' split at stepped
        all_goals
          cases stepped
          exact .updated _ (updates_of_found found (fun same => same) (by rintro ⟨⟩))
      · cases stepped
  | answered id =>
      obtain ⟨attempt, found, stepped⟩ := bind_eq_some_iff.mp stepped
      split at stepped
      · next waits =>
          split at stepped
          · cases stepped
          · next isOpen =>
              cases stepped
              exact .inserted found waits isOpen
          · cases stepped
            exact .updated _ (updates_of_found found (fun _ => rfl) (fun same => same))
      · cases stepped
  | abandoned id =>
      obtain ⟨attempt, found, stepped⟩ := bind_eq_some_iff.mp stepped
      split at stepped
      · cases stepped
        exact .updated _ (updates_of_found found (fun _ => rfl) (fun same => same))
      · cases stepped
  | dispatch id caller command =>
      rw [step] at stepped
      split at stepped
      · cases stepped
        exact .unchanged _
      · split at stepped
        · cases stepped
          exact .unchanged _
        · obtain ⟨attempt, found, stepped⟩ := bind_eq_some_iff.mp stepped
          split at stepped
          · cases stepped
            exact .updated _ (updates_of_found found (fun same => same)
              (fun same => same))
          · cases stepped
            exact .unchanged _
  | received id fenced =>
      obtain ⟨attempt, found, stepped⟩ := bind_eq_some_iff.mp stepped
      split at stepped
      · split at stepped
        · cases stepped
        · split at stepped
          all_goals
            cases stepped
            exact .updated _ (updates_of_found found (fun same => same) (by simp))
        · cases stepped
          exact .updated _ (updates_of_found found (fun same => same) (by rintro ⟨⟩))
      · cases stepped
  | idle id
  | hungUp id =>
      obtain ⟨attempt, found, stepped⟩ := bind_eq_some_iff.mp stepped
      split at stepped
      · cases stepped
        exact .updated _ (updates_of_found found (fun same => same) (by rintro ⟨⟩))
      · cases stepped
  | cleanedUp id =>
      obtain ⟨attempt, found, stepped⟩ := bind_eq_some_iff.mp stepped
      split at stepped
      · next ended =>
          cases stepped
          exact .removed found ended
      · cases stepped

/-! ## The accounting -/

/-- As many entries as are allowed, and none of a task that is gone. -/
structure Accounted (maxTransactions : Nat) (state : State Owner) :
    Prop where
  limit : state.registry.size ≤ maxTransactions
  cleaned : ∀ id attempt, state.attempts id = some attempt →
    attempt.task = .cleaned → id ∉ state.registry

/-- Every state of a run is accounted for. -/
def Accounts (maxTransactions : Nat) (events : List (Event Owner)) : Prop :=
  ∀ front rest state, events = front ++ rest →
    LabelledRun (step maxTransactions) .new front state →
      Accounted maxTransactions state

/-- An entry is inserted where there is no room, or after its task is gone. -/
def Overruns (maxTransactions : Nat) (state : State Owner)
    (event : Event Owner) : Prop :=
  ∃ id attempt, event = .answered id ∧ state.attempts id = some attempt ∧
    attempt.waiting = true ∧ attempt.answer = some true ∧
      (maxTransactions ≤ state.registry.size ∨ attempt.task = .cleaned)

/-- A call whose entry is listed has returned. -/
def Listed (state : State Owner) : Prop := ∀ id ∈ state.registry, ∃ attempt,
    state.attempts id = some attempt ∧ attempt.waiting = false

omit [DecidableEq Owner] in
@[simp] theorem State.set_self
    (state : State Owner) (id : Uuid) (attempt : Attempt Owner) :
    (state.set id attempt).attempts id = some attempt :=
  if_pos rfl

omit [DecidableEq Owner] in
theorem State.set_other
    (state : State Owner) {id other : Uuid}
    (different : other ≠ id)
    (attempt : Attempt Owner) :
    (state.set id attempt).attempts other = state.attempts other :=
  if_neg different

omit [DecidableEq Owner] in
theorem listed_of_moves
    (moves : Moves state event next) (listed : Listed state) :
    Listed next := by
  cases moves with
  | unchanged => exact listed
  | @updated id attempt _ updates =>
      intro other member
      obtain ⟨before, found, returned⟩ := listed other member
      by_cases same : other = id
      · subst same
        exact ⟨attempt, state.set_self other attempt,
          updates.waiting before found returned⟩
      · exact ⟨before, (state.set_other same attempt).trans found, returned⟩
  | @inserted id attempt found waits isOpen =>
      intro other member
      by_cases same : other = id
      · subst same
        exact ⟨_, state.set_self other _, rfl⟩
      · rcases Std.ExtTreeMap.mem_insert.mp member with isId | older
        · exact absurd (Std.LawfulEqOrd.eq_of_compare isId).symm same
        · obtain ⟨before, wasFound, returned⟩ := listed other older
          exact ⟨before, (state.set_other same _).trans wasFound, returned⟩
  | @removed id attempt found ended =>
      intro other member
      obtain ⟨notId, older⟩ := Std.ExtTreeMap.mem_erase.mp member
      have different : other ≠ id := by
        rintro rfl
        exact notId Std.ReflOrd.compare_self
      obtain ⟨before, wasFound, returned⟩ := listed other older
      exact ⟨before, (state.set_other different _).trans wasFound, returned⟩

omit [DecidableEq Owner] in
/-- A step that overruns nothing keeps the accounting. -/
theorem accounted_of_moves
    (moves : Moves state event next)
    (accounted : Accounted maxTransactions state)
    (within : ¬Overruns maxTransactions state event) :
    Accounted maxTransactions next := by
  cases moves with
  | unchanged => exact accounted
  | @updated id attempt _ updates =>
      refine ⟨accounted.limit, ?_⟩
      intro other after isAfter cleaned
      by_cases same : other = id
      · subst same
        rw [State.set_self] at isAfter
        cases isAfter
        obtain ⟨before, found, wasCleaned⟩ := updates.task cleaned
        exact accounted.cleaned other before found wasCleaned
      · rw [State.set_other _ same] at isAfter
        exact accounted.cleaned other after isAfter cleaned
  | @inserted id attempt found waits isOpen =>
      have room : state.registry.size < maxTransactions := by
        refine Nat.lt_of_not_le (fun full => within ?_)
        exact ⟨id, attempt, rfl, found, waits, isOpen, Or.inl full⟩
      have notCleaned : attempt.task ≠ .cleaned := by
        intro cleaned
        exact within ⟨id, attempt, rfl, found, waits, isOpen, Or.inr cleaned⟩
      refine ⟨?_, ?_⟩
      · exact Nat.le_trans Std.ExtTreeMap.size_insert_le room
      · intro other after isAfter cleaned
        by_cases same : other = id
        · subst same
          have isSelf := isAfter.symm.trans (state.set_self other _)
          cases isSelf
          exact absurd cleaned notCleaned
        · have wasThere := (state.set_other same _).symm.trans isAfter
          intro member
          rcases Std.ExtTreeMap.mem_insert.mp member with isId | older
          · exact same (Std.LawfulEqOrd.eq_of_compare isId).symm
          · exact accounted.cleaned other after wasThere cleaned older
  | @removed id attempt found ended =>
      refine ⟨?_, ?_⟩
      · exact Nat.le_trans Std.ExtTreeMap.size_erase_le accounted.limit
      · intro other after isAfter cleaned member
        obtain ⟨notId, older⟩ := Std.ExtTreeMap.mem_erase.mp member
        have different : other ≠ id := by
          rintro rfl
          exact notId Std.ReflOrd.compare_self
        have wasThere := (state.set_other different _).symm.trans isAfter
        exact accounted.cleaned other after wasThere cleaned older

theorem not_accounted_of_overruns
    (stepped : step maxTransactions state event = some next)
    (listed : Listed state) (overruns : Overruns maxTransactions state event) :
    ¬Accounted maxTransactions next := by
  obtain ⟨id, ⟨owner, waiting, answer, task, commands⟩, rfl, found, waits,
    isOpen, tooMany⟩ := overruns
  obtain rfl : waiting = true := waits
  obtain rfl : answer = some true := isOpen
  simp only [step, found, bind_eq_bind, bind_some, if_true] at stepped
  cases stepped
  intro accounted
  rcases tooMany with full | cleaned
  · -- The entry is a new one, so the registry grows by it.
    have isNew : id ∉ state.registry := by
      intro member
      obtain ⟨before, wasFound, returned⟩ := listed id member
      rw [found] at wasFound
      cases wasFound
      cases returned
    have limit : (state.registry.insert id owner).size ≤ maxTransactions :=
      accounted.limit
    have notContained : ¬state.registry.contains id = true := isNew
    rw [Std.ExtTreeMap.size_insert, if_neg notContained] at limit
    exact absurd (Nat.le_trans limit full) (Nat.not_succ_le_self _)
  · refine accounted.cleaned id _ (state.set_self id _) cleaned ?_
    exact Std.ExtTreeMap.mem_insert_self

/--
Every state of a run is accounted for exactly when each entry is inserted while
there is room for it and before its task has cleaned up.
-/
theorem accounts_iff
    {maxTransactions : Nat} {events : List (Event Owner)} {last : State Owner}
    (run : LabelledRun (step maxTransactions) .new events last) :
    Accounts maxTransactions events ↔ LabelledRun.Along (step maxTransactions)
        (fun state event => ¬Overruns maxTransactions state event) .new
        events := by
  have listedNew : Listed (State.new : State Owner) := by
    intro id member
    exact absurd member Std.ExtTreeMap.not_mem_empty
  have listedAlong : ∀ front (state : State Owner),
      LabelledRun (step maxTransactions) .new front state → Listed state := by
    intro front state reached
    refine reached.invariant Listed ?_ listedNew
    intro before event after stepped listed
    exact listed_of_moves (moves_of_step stepped) listed
  have accountedNew : Accounted maxTransactions (State.new : State Owner) := by
    refine ⟨?_, ?_⟩
    · exact Nat.zero_le _
    · rintro id attempt ⟨⟩
  constructor
  · intro accounts front event rest state parts reached overruns
    rw [parts] at run
    obtain ⟨reached', reaching, onward⟩ := run.split
    obtain rfl : reached' = state := reaching.functional reached
    cases onward with
    | @cons _ next _ _ _ stepped _ =>
        have after : LabelledRun (step maxTransactions) .new (front ++ [event]) next :=
          reached.append (.cons stepped (.nil next))
        refine not_accounted_of_overruns stepped (listedAlong _ _ reached) overruns ?_
        exact accounts (front ++ [event]) rest next (by simpa using parts) after
  · intro along front rest state parts reached
    refine reached.holds_of_along ?_ (along.earlier parts) accountedNew
    intro before event after stepped accounted within
    exact accounted_of_moves (moves_of_step stepped) accounted within

/-! ## Clients that race -/

/-- A client opens a transaction, commits it, and its task cleans up. -/
def oneClient : List (Event String) :=
  [.begin 0 "ann", .opened 0 true, .answered 0, .dispatch 0 "ann" .commit,
    .received 0 false, .cleanedUp 0]

/-- Two clients pass a limit of one before either has an entry. -/
def racingClients : List (Event String) :=
  [.begin 0 "ann", .begin 1 "bob", .opened 0 true, .opened 1 true,
    .answered 0, .answered 1]

/-- One client after the other is accounted for. -/
theorem oneClient_accounts : Accounts 1 oneClient := by
  have taken : (oneClient.foldlM (step 1) .new).isSome = true := by decide
  have run : LabelledRun (step 1) .new oneClient
      ((oneClient.foldlM (step 1) .new).get taken) :=
    .of_foldlM (eq_some_of_isSome _)
  refine (accounts_iff run).mpr ?_
  refine (LabelledRun.along_cons rfl).mpr ⟨by rintro ⟨_, _, ⟨⟩, _⟩, ?_⟩
  refine (LabelledRun.along_cons rfl).mpr ⟨by rintro ⟨_, _, ⟨⟩, _⟩, ?_⟩
  refine (LabelledRun.along_cons rfl).mpr ⟨?_, ?_⟩
  · rintro ⟨_, attempt, ⟨⟩, found, _, _, full | cleaned⟩
    · exact absurd full (by decide)
    · cases found
      cases cleaned
  refine (LabelledRun.along_cons rfl).mpr ⟨by rintro ⟨_, _, ⟨⟩, _⟩, ?_⟩
  refine (LabelledRun.along_cons rfl).mpr ⟨by rintro ⟨_, _, ⟨⟩, _⟩, ?_⟩
  refine (LabelledRun.along_cons rfl).mpr ⟨by rintro ⟨_, _, ⟨⟩, _⟩, ?_⟩
  exact LabelledRun.along_nil _

/-- Two clients that race to begin are more than the limit allows. -/
theorem not_accounts_racingClients :
    ¬∀ (Owner : Type) (_ : DecidableEq Owner) (maxTransactions : Nat)
      (events : List (Event Owner)) (last : State Owner),
      LabelledRun (step maxTransactions) .new events last →
        Accounts maxTransactions events := by
  intro always
  have taken : (racingClients.foldlM (step 1) .new).isSome = true := by
    decide
  have run : LabelledRun (step 1) .new racingClients
      ((racingClients.foldlM (step 1) .new).get taken) :=
    .of_foldlM (eq_some_of_isSome _)
  have accounted := always String inferInstance 1 racingClients _ run
    racingClients [] _ (List.append_nil _).symm run
  have limit : ((racingClients.foldlM (step 1) .new).get
      (by decide)).registry.size ≤ 1 :=
    accounted.limit
  exact absurd limit (by decide)

end Sessions

end SlateOrm
