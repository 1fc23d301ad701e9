import SlateOrm.LabelledRun

namespace SlateOrm

/-!
# Leadership of a head node

A node campaigns for the lease, renews it, and gives the writer role up.  Each
call runs without interruption up to its await on the lease, and is suspended
there while other calls run; the lease answers when and as it likes.  A call
that has been answered publishes the standing the answer stands for.

Stepping down is meant to be terminal.  It is kept by exactly the runs in which
no campaign or renewal that was still waiting when the node stepped down is
answered in a way it publishes without looking at the standing again.
-/

/-- One holder's time with the lease. -/
structure Term where
  generation : UInt64
  holder : String
  /-- Nanoseconds since the epoch, by the holder's clock. -/
  expiresAt : Int
  deriving DecidableEq, Repr

/-- Why the lease refused a request. -/
inductive LeaseError where
  | held (holder : String) (expiresAt : Int)
  | lost (holder : String) (generation : UInt64)
  | notHeld
  | malformed (detail : String)
  | unsupported (operation store remedy : String)
  | backend (detail : String)
  deriving DecidableEq, Repr

/-- Why a node stopped being the writer. -/
inductive StepDown where
  | fenced
  | leaseLost
  | resigned
  | leaseUnusable
  deriving DecidableEq, Repr

/-- Where a node stands with respect to writing. -/
inductive Standing where
  | follower (leader : Option String)
  | leader (term : Term)
  | steppedDown (reason : StepDown)
  deriving DecidableEq, Repr

namespace Standing

/-- Whether writes may be attempted. -/
def isLeader : Standing → Bool
  | leader _ => true
  | _ => false

/-- Whether the node has given up the writer role for good. -/
def hasSteppedDown : Standing → Bool
  | steppedDown _ => true
  | _ => false

@[simp] theorem hasSteppedDown_follower (leader : Option String) :
    (follower leader).hasSteppedDown = false := rfl

@[simp] theorem hasSteppedDown_leader (term : Term) :
    (leader term).hasSteppedDown = false := rfl

theorem isLeader_eq_false_of_hasSteppedDown
    {standing : Standing}
    (down : standing.hasSteppedDown = true) :
    standing.isLeader = false := by
  cases standing with
  | follower _ => rfl
  | leader _ => cases down
  | steppedDown _ => rfl

end Standing

namespace Leadership

/-! ## The calls, up to their awaits -/

/-- What a suspended call is waiting for. -/
inductive Awaiting where
  /-- A campaign, at `acquire`. -/
  | acquire
  /-- A renewal, at `renew`. -/
  | renew
  /-- A call that has stepped down, at `release`; it then returns this. -/
  | release (answer : Option Bool)
  deriving DecidableEq, Repr

/-- How far a call has come; a call without a result returns `none`. -/
inductive Progress where
  | awaits (request : Awaiting)
  | returned (answer : Option Bool)
  deriving DecidableEq, Repr

/-- Publish that the node has stopped, then give the lease up. -/
def stepDown (standing : Standing) (reason : StepDown)
    (answer : Option Bool) : Standing × Progress :=
  if standing.hasSteppedDown then
    (standing, .returned answer)
  else
    (.steppedDown reason, .awaits (.release answer))

/-- Try once to become the leader, up to the lease. -/
def campaign (standing : Standing) : Standing × Progress :=
  if standing.hasSteppedDown then
    (standing, .returned (some false))
  else
    (standing, .awaits .acquire)

/-- The rest of a campaign, from the lease's answer. -/
def campaignAnswered (standing : Standing) :
    Except LeaseError Term → Standing × Progress
  | .ok term => (.leader term, .returned (some true))
  | .error (.held holder _) => (.follower (some holder), .returned (some false))
  | .error (.unsupported _ _ _) => stepDown standing .leaseUnusable (some false)
  | .error _ => (.follower none, .returned (some false))

/-- Extend the term, up to the lease. -/
def renew (standing : Standing) : Standing × Progress := if !standing.isLeader then
    (standing, .returned (some false))
  else
    (standing, .awaits .renew)

/-- The rest of a renewal, from the lease's answer. -/
def renewAnswered (standing : Standing) : Except LeaseError Term → Standing × Progress
  | .ok term => (.leader term, .returned (some true))
  | .error (.lost _ _) => stepDown standing .leaseLost (some false)
  | .error .notHeld => stepDown standing .leaseLost (some false)
  | .error _ => (standing, .returned (some true))

/-- Stop being the writer because the storage layer said so. -/
def fenced (standing : Standing) : Standing × Progress := stepDown standing .fenced none

/-- Stand down deliberately. -/
def resign (standing : Standing) : Standing × Progress :=
  stepDown standing .resigned none

/-- Record who the lease says holds it, without trying to take it. -/
def observed (standing : Standing) (holder : Option String) : Standing :=
  let next := Standing.follower holder
  if standing.hasSteppedDown || standing.isLeader || standing == next then
    standing
  else
    next

/-! ## Interleaved calls on one node -/

/-- A call that may await the lease. -/
inductive Call where
  | campaign
  | renew
  | fenced
  | resign
  deriving DecidableEq, Repr

/-- One uninterrupted stretch of a call. -/
inductive Action where
  | start (id : Nat) (call : Call)
  | acquired (id : Nat) (answer : Except LeaseError Term)
  | renewed (id : Nat) (answer : Except LeaseError Term)
  | released (id : Nat) (answer : Except LeaseError Unit)
  | observed (holder : Option String)

/-- A node's standing, and its calls that wait for the lease. -/
structure State where
  standing : Standing
  suspended : List (Nat × Awaiting)
  deriving DecidableEq, Repr

namespace State

/-- A node that follows and has not campaigned. -/
def new : State where
  standing := .follower none
  suspended := []

/-- Let a call come as far as it does. -/
def proceed (state : State) (id : Nat) (outcome : Standing × Progress) : State where
  standing := outcome.1
  suspended :=
    let others := state.suspended.filter (fun entry => entry.1 != id)
    match outcome.2 with
    | .awaits request => (id, request) :: others
    | .returned _ => others

end State

/-- The first stretch of a call. -/
def begin (standing : Standing) : Call → Standing × Progress
  | .campaign => campaign standing
  | .renew => renew standing
  | .fenced => fenced standing
  | .resign => resign standing

/-- Run one stretch of one call, if it is that call's turn. -/
def step (state : State) : Action → Option State
  | .start id call =>
      if (state.suspended.lookup id).isSome then
        none
      else
        some (state.proceed id (begin state.standing call))
  | .acquired id answer =>
      if state.suspended.lookup id = some .acquire then
        some (state.proceed id (campaignAnswered state.standing answer))
      else
        none
  | .renewed id answer =>
      if state.suspended.lookup id = some .renew then
        some (state.proceed id (renewAnswered state.standing answer))
      else
        none
  -- whether the release landed is not looked at
  | .released id _ =>
      match state.suspended.lookup id with
      | some (.release answer) =>
          some (state.proceed id (state.standing, .returned answer))
      | _ => none
  | .observed holder => some { state with standing := observed state.standing holder }

/-! ## When stepping down is terminal -/

/-- Whether an answer is published whatever the standing has become. -/
def Action.publishes : Action → Bool
  | .acquired _ (.error (.unsupported _ _ _)) => false
  | .acquired _ _ => true
  | .renewed _ (.ok _) => true
  | _ => false

/-- Once a run's standing is stepped down, it stays so, and writes stay off. -/
def Terminal (actions : List Action) : Prop := ∀ front between rest state later,
    actions = front ++ between ++ rest → LabelledRun step State.new front state →
        LabelledRun step state between later → state.standing.hasSteppedDown = true →
            later.standing.hasSteppedDown = true ∧ later.standing.isLeader = false

theorem stepDown_of_hasSteppedDown
    {standing : Standing} (reason : StepDown) (answer : Option Bool)
    (down : standing.hasSteppedDown = true) :
    stepDown standing reason answer = (standing, .returned answer) := by
  simp [stepDown, down]

theorem begin_of_hasSteppedDown
    {standing : Standing} (call : Call)
    (down : standing.hasSteppedDown = true) :
    (begin standing call).1 = standing := by
  cases call with
  | campaign => simp [begin, campaign, down]
  | renew =>
      have follows := Standing.isLeader_eq_false_of_hasSteppedDown down
      simp [begin, renew, follows]
  | fenced => simp [begin, fenced, stepDown_of_hasSteppedDown _ _ down]
  | resign => simp [begin, resign, stepDown_of_hasSteppedDown _ _ down]

section

variable
  {standing : Standing}
  (id : Nat)
  (answer : Except LeaseError Term)
  (down : standing.hasSteppedDown = true)

include id answer down

theorem campaignAnswered_of_hasSteppedDown :
    (campaignAnswered standing answer).1.hasSteppedDown = true ↔
      ¬(Action.acquired id answer).publishes = true := by
  cases answer with
  | ok term => simp [campaignAnswered, Action.publishes]
  | error error =>
      cases error <;>
        simp [campaignAnswered, Action.publishes,
          stepDown_of_hasSteppedDown _ _ down, down]

theorem renewAnswered_of_hasSteppedDown :
    (renewAnswered standing answer).1.hasSteppedDown = true ↔
      ¬(Action.renewed id answer).publishes = true := by
  cases answer with
  | ok term => simp [renewAnswered, Action.publishes]
  | error error =>
      cases error <;>
        simp [renewAnswered, Action.publishes,
          stepDown_of_hasSteppedDown _ _ down, down]

end

/-- A stretch undoes a step down exactly if it publishes an answer. -/
theorem step_of_hasSteppedDown
    (state : State) (action : Action) (next : State)
    (stepped : step state action = some next)
    (down : state.standing.hasSteppedDown = true) :
    next.standing.hasSteppedDown = true ↔ ¬action.publishes = true := by
  cases action with
  | start id call =>
      simp only [step] at stepped
      split at stepped
      · cases stepped
      · cases stepped
        simp [State.proceed, begin_of_hasSteppedDown call down, down, Action.publishes]
  | acquired id answer =>
      simp only [step] at stepped
      split at stepped
      · cases stepped
        exact campaignAnswered_of_hasSteppedDown id answer down
      · cases stepped
  | renewed id answer =>
      simp only [step] at stepped
      split at stepped
      · cases stepped
        exact renewAnswered_of_hasSteppedDown id answer down
      · cases stepped
  | released id answer =>
      simp only [step] at stepped
      split at stepped
      · cases stepped
        simp [State.proceed, down, Action.publishes]
      · cases stepped
  | observed holder =>
      cases stepped
      simp [observed, down, Action.publishes]

theorem terminal_iff_persists
    (actions : List Action) :
    Terminal actions ↔ LabelledRun.Persists step
        (fun state => state.standing.hasSteppedDown = true)
        State.new actions := by
  constructor
  · intro terminal front between rest state later parts before run down
    exact (terminal front between rest state later parts before run down).1
  · intro persists front between rest state later parts before run down
    have downLater : later.standing.hasSteppedDown = true :=
      persists front between rest state later parts before run down
    exact ⟨downLater, Standing.isLeader_eq_false_of_hasSteppedDown downLater⟩

/--
Stepping down is terminal in exactly the runs in which no campaign or renewal
is answered, after the node has stepped down, in a way it publishes.
-/
theorem terminal_iff
    {actions : List Action} {last : State}
    (run : LabelledRun step State.new actions last) :
    Terminal actions ↔ LabelledRun.Along step (fun state action =>
          state.standing.hasSteppedDown = true → ¬action.publishes = true)
        State.new actions :=
  (terminal_iff_persists actions).trans
    (LabelledRun.persists_iff step_of_hasSteppedDown run)

/-- A term that the head node holds. -/
def headTerm : Term where
  generation := 1
  holder := "head"
  expiresAt := 15000000000

/-- The node wins the lease, and then a request finds its store fenced. -/
def fencedLeader : List Action :=
  [.start 0 .campaign, .acquired 0 (.ok headTerm), .start 1 .fenced,
    .released 1 (.ok ()), .start 2 .campaign, .observed (some "other")]

/-- The fence is reported while a renewal waits, and the renewal is granted. -/
def fencedWhileRenewing : List Action :=
  [.start 0 .campaign, .acquired 0 (.ok headTerm), .start 1 .renew,
    .start 2 .fenced, .renewed 1 (.ok headTerm)]

/-- A fence after the campaign has been answered is final. -/
theorem fencedLeader_terminal : Terminal fencedLeader := by
  have run : LabelledRun step State.new fencedLeader ⟨.steppedDown .fenced, []⟩ :=
    LabelledRun.of_foldlM rfl
  refine (terminal_iff run).mpr ?_
  refine (LabelledRun.along_cons rfl).mpr ⟨by decide, ?_⟩
  refine (LabelledRun.along_cons rfl).mpr ⟨by decide, ?_⟩
  refine (LabelledRun.along_cons rfl).mpr ⟨by decide, ?_⟩
  refine (LabelledRun.along_cons rfl).mpr ⟨by decide, ?_⟩
  refine (LabelledRun.along_cons rfl).mpr ⟨by decide, ?_⟩
  refine (LabelledRun.along_cons rfl).mpr ⟨by decide, ?_⟩
  exact LabelledRun.along_nil _

/-- A granted renewal makes a fenced node the leader again. -/
theorem not_terminal_fencedWhileRenewing :
    ¬Terminal fencedWhileRenewing := by
  intro terminal
  have fencedRun : LabelledRun step State.new (fencedWhileRenewing.take 4)
      ⟨.steppedDown .fenced, [(2, .release none), (1, .renew)]⟩ :=
    LabelledRun.of_foldlM rfl
  have grantedRun : LabelledRun step
      ⟨.steppedDown .fenced, [(2, .release none), (1, .renew)]⟩
      (fencedWhileRenewing.drop 4)
      ⟨.leader headTerm, [(2, .release none)]⟩ :=
    LabelledRun.of_foldlM rfl
  have leads := terminal (fencedWhileRenewing.take 4)
    (fencedWhileRenewing.drop 4) [] _ _ rfl fencedRun grantedRun rfl
  exact absurd leads.1 (by decide)

end Leadership

end SlateOrm
