import SlateOrm.LeaseTerm

namespace SlateOrm

open List

/-!
# A lease on a locked file

A client holds the lease as an advisory lock on one file, and the file records
the generation of the last term.  Every call is split at its file operations,
and a client may stop for good between any two of them.  The lock keeps the
holders apart.  The record is truncated before it is written again, so a client
that stops between the two takes the generation with it.
-/

open Lease

namespace FileLease

/-! ## The record -/

/-- Marks the file and versions the format. -/
def magic : List Char := "slate-file-lease v1".toList

/-- What one line of the file says. -/
def readLine (found : UInt64 × String) (line : List Char) : UInt64 × String :=
  match line.dropPrefix? "generation: ".toList with
  | some rest =>
      (UInt64.ofNat ((parseUnsigned UInt64.size (trimText isWhitespace rest)).getD 0),
        found.2)
  | none =>
      match line.dropPrefix? "holder: ".toList with
      | some rest => (found.1, String.ofList (trimText isWhitespace rest))
      | none => found

/-- The generation and the holder that a file names. -/
def readText (text : List Char) : UInt64 × String :=
  (textLines text).foldl readLine (0, "unknown")

/-- The pieces of a record, in the order they are written. -/
def pieces (generation : UInt64) (holder : String) : List (List Char) :=
  [magic, "\ngeneration: ".toList, Nat.toDigits 10 generation.toNat,
    "\nholder: ".toList, holder.toList, "\n".toList]

/-- A holder's name without line ends. -/
def holderName (label : String) : String := String.ofList (label.toList.map (fun char =>
    if char = '\n' ∨ char = '\r' then '_' else char))

/-! ## Clients -/

/-- What a client was made with. -/
structure Config where
  label : String
  termLength : Nat
  deriving DecidableEq, Repr

/-- Why a client writes the record. -/
inductive Purpose where
  | acquire
  | release
  deriving DecidableEq, Repr

/-- The name that is written into the record. -/
def Purpose.holder (config : Config) : Purpose → String
  | acquire => holderName config.label
  | release => "(released)"

/-- The file operation that a client's call has come to. -/
inductive Phase where
  | idle
  | opening
  | opened
  /-- Another client has the lock. -/
  | refused
  | locked
  | truncating (purpose : Purpose) (generation : UInt64)
  | writing (purpose : Purpose) (generation : UInt64) (left : List (List Char))
  | unlocking
  | stopped
  deriving DecidableEq, Repr

/-- The file operation that a call to observe has come to. -/
inductive Watch where
  | idle
  | opening
  | opened
  deriving DecidableEq, Repr

/-- What a call returned. -/
inductive Answer where
  | term (result : Except LeaseError Term)
  | released (result : Except LeaseError Unit)
  | observed (term : Option Term)

/-- A client, with what its last call returned. -/
structure Client where
  phase : Phase := .idle
  held : Option Term := none
  watch : Watch := .idle
  answer : Option Answer := none

/-- The file, its lock, the clients, and the generations of their terms. -/
structure State where
  file : Option (List Char)
  lock : Option Nat
  clients : Nat → Client
  /-- The generations of the terms, oldest first. -/
  generations : List UInt64

/-- Clients that have not called yet. -/
def State.new (file : Option (List Char)) : State where
  file := file
  lock := none
  clients _ := {}
  generations := []

/-- What the file holds; a file that is not there holds nothing. -/
def State.contents (state : State) : List Char := state.file.getD []

/-- Replace a client. -/
def State.set (state : State) (id : Nat) (client : Client) : State :=
  { state with
    clients := fun other => if other = id then client else state.clients other }

/-! ## Steps -/

/-- One file operation, or the start of a call. -/
inductive Event where
  | acquire (id : Nat)
  | openFile (id : Nat)
  | tryLock (id : Nat)
  | read (id : Nat) (now : Int)
  | truncate (id : Nat)
  | write (id : Nat)
  /-- The record has been written; the call goes on. -/
  | finish (id : Nat) (now : Int)
  | renew (id : Nat) (now : Int)
  | release (id : Nat)
  | unlock (id : Nat)
  | observe (id : Nat)
  | observeOpen (id : Nat)
  | observeRead (id : Nat) (now : Int)
  /-- The file operation that a call has come to reports a failure. -/
  | fail (id : Nat) (detail : String) (now : Int)
  /-- A client stops for good, and its lock is freed. -/
  | stop (id : Nat)

/-- Another client has the lock; its name is in the file. -/
def refusal (config : Config) (holder : String) (now : Int) : Answer :=
  .term (.error (.held holder (now + config.termLength)))

/-- Take one step; a client's calls wait for each other. -/
def step (config : Nat → Config) (state : State) : Event → Option State
  | .acquire id =>
      let client := state.clients id
      match client.phase, client.held with
      | .idle, some term =>
          some (state.set id { client with answer := some (.term (.ok term)) })
      | .idle, none => some (state.set id { client with phase := .opening })
      | _, _ => none
  | .openFile id =>
      let client := state.clients id
      match client.phase with
      | .opening =>
          some { state.set id { client with phase := .opened } with
            file := some state.contents }
      | _ => none
  | .tryLock id =>
      let client := state.clients id
      match client.phase, state.lock with
      | .opened, none =>
          some { state.set id { client with phase := .locked } with
            lock := some id }
      | .opened, some _ => some (state.set id { client with phase := .refused })
      | _, _ => none
  | .read id now =>
      let client := state.clients id
      match client.phase with
      | .refused =>
          some (state.set id { client with
            phase := .idle
            answer := some (refusal (config id) (readText state.contents).2 now) })
      | .locked =>
          some (state.set id { client with
            phase := .truncating .acquire
                (nextGeneration (readText state.contents).1) })
      | _ => none
  | .truncate id =>
      let client := state.clients id
      match client.phase with
      | .truncating purpose generation =>
          some { state.set id { client with
              phase := .writing purpose generation
                  (pieces generation (purpose.holder (config id))) } with
            file := some [] }
      | _ => none
  | .write id =>
      let client := state.clients id
      match client.phase with
      | .writing purpose generation (piece :: left) =>
          some { state.set id { client with
              phase := .writing purpose generation left } with
            file := some (state.contents ++ piece) }
      | _ => none
  | .finish id now =>
      let client := state.clients id
      match client.phase with
      | .writing .acquire generation [] =>
          let term : Term :=
            { generation := generation
              holder := holderName (config id).label
              expiresAt := now + (config id).termLength }
          some { state.set id { client with
              phase := .idle
              held := some term
              answer := some (.term (.ok term)) } with
            generations := state.generations ++ [generation] }
      | .writing .release _ [] =>
          some (state.set id { client with phase := .unlocking })
      | _ => none
  | .renew id now =>
      let client := state.clients id
      match client.phase, client.held with
      | .idle, some term =>
          let term := { term with expiresAt := now + (config id).termLength }
          some (state.set id { client with
            held := some term
            answer := some (.term (.ok term)) })
      | .idle, none =>
          some (state.set id { client with
            answer := some (.term (.error .notHeld)) })
      | _, _ => none
  | .release id =>
      let client := state.clients id
      match client.phase, client.held with
      | .idle, some term =>
          some (state.set id { client with
            phase := .truncating .release term.generation
            held := none })
      | .idle, none =>
          some (state.set id { client with
            answer := some (.released (.error .notHeld)) })
      | _, _ => none
  | .unlock id =>
      let client := state.clients id
      match client.phase with
      | .unlocking =>
          some { state.set id { client with
              phase := .idle
              answer := some (.released (.ok ())) } with
            lock := none }
      | _ => none
  | .observe id =>
      let client := state.clients id
      match client.phase, client.watch, client.held with
      | .idle, .idle, some term =>
          some (state.set id { client with
            answer := some (.observed (some term)) })
      | .idle, .idle, none => some (state.set id { client with watch := .opening })
      | _, _, _ => none
  | .observeOpen id =>
      let client := state.clients id
      match client.watch with
      | .opening =>
          some { state.set id { client with watch := .opened } with
            file := some state.contents }
      | _ => none
  | .observeRead id now =>
      let client := state.clients id
      match client.watch with
      | .opened =>
          let (generation, holder) := readText state.contents
          let seen : Option Term := if generation = 0 ∨ holder = "(released)" then
              none
            else
              some {
                generation := generation
                holder := holder
                expiresAt := now + (config id).termLength }
          some (state.set id { client with
            watch := .idle
            answer := some (.observed seen) })
      | _ => none
  | .fail id detail now =>
      let client := state.clients id
      let failed : Option Answer := some (.term (.error (.backend detail)))
      match client.phase with
      | .opening => some (state.set id { client with phase := .idle, answer := failed })
      | .refused =>
          some (state.set id { client with
            phase := .idle
            answer := some (refusal (config id) "unknown" now) })
      | .locked =>
          some (state.set id { client with
            phase := .truncating .acquire (nextGeneration 0) })
      | .truncating .acquire _ | .writing .acquire _ _ =>
          some { state.set id { client with
              phase := .idle
              answer := failed } with
            lock := none }
      | .truncating .release _ | .writing .release _ _ =>
          some (state.set id { client with phase := .unlocking })
      | _ => none
  | .stop id =>
      let client := state.clients id
      match client.phase with
      | .stopped => none
      | _ =>
          some { state.set id { client with
              phase := .stopped
              held := none
              watch := .idle } with
            lock := if state.lock = some id then none else state.lock }

/-! ## What the lease promises -/

/-- The steps of a renewal, and of an acquire up to its refusal. -/
def TakesNothing (state : State) (event : Event) : Prop :=
  ∃ id now, event = .renew id now ∨ event = .acquire id ∨
    event = .openFile id ∨ event = .tryLock id ∨
      (event = .read id now ∧ (state.clients id).phase = .refused)

/-- The promises of the lease in one state. -/
structure Promises (config : Nat → Config) (state : State) : Prop where
  exclusive : ∀ first second, (state.clients first).held.isSome = true →
      (state.clients second).held.isSome = true → first = second
  raised : state.generations.Pairwise Raised
  unchanged : ∀ event next, step config state event = some next →
    TakesNothing state event → next.contents = state.contents

/-- Every state of a run keeps the promises. -/
def KeepsPromises (config : Nat → Config) (file : Option (List Char))
    (events : List Event) : Prop :=
  ∀ front rest state, events = front ++ rest →
    LabelledRun (step config) (.new file) front state → Promises config state

/-- The file names a generation that no term has gone beyond. -/
def Recorded (generations : List UInt64) (text : List Char) : Prop :=
  ∀ generation ∈ generations, generation ≤ (readText text).1

/--
A client stops, or fails to write, while it rewrites the record only when what
stands in the file still names the last generation, and fails to read the
record only before the first term.
-/
def Recoverable (state : State) (event : Event) : Prop :=
  ∀ id, (event = .stop id ∨ ∃ detail now, event = .fail id detail now) →
    (∀ purpose generation left,
      (state.clients id).phase = .writing purpose generation left →
        Recorded state.generations state.contents) ∧
    (event ≠ .stop id → (state.clients id).phase = .locked → state.generations = [])

/-! ## Reading a record back -/

theorem oneLine_holder
    (config : Config) (purpose : Purpose) :
    OneLine (purpose.holder config).toList := by
  cases purpose with
  | acquire =>
      intro char member
      rw [Purpose.holder, holderName, String.toList_ofList, mem_map] at member
      obtain ⟨original, -, rfl⟩ := member
      split
      · decide
      · rename_i plain
        exact not_or.mp plain
  | release =>
      have plain : OneLine "(released)".toList := oneLine_of_all (by decide)
      exact plain

/-- A record that has been written whole names its generation. -/
theorem readText_pieces
    (generation : UInt64) {holder : String} (oneLine : OneLine holder.toList) :
    (readText (pieces generation holder).flatten).1 = generation := by
  have inLines : (pieces generation holder).flatten = magic ++ '\n' ::
        (("generation: ".toList ++ Nat.toDigits 10 generation.toNat) ++
          '\n' :: (("holder: ".toList ++ holder.toList) ++ '\n' :: [])) := by
    simp [pieces]
  have magicLine : OneLine magic := oneLine_of_all (by decide)
  have generationLine : OneLine ("generation: ".toList ++
        Nat.toDigits 10 generation.toNat) := by
    exact OneLine.append (oneLine_of_all (by decide)) (oneLine_toDigits _)
  have holderLine : OneLine ("holder: ".toList ++ holder.toList) := by
    exact OneLine.append (oneLine_of_all (by decide)) oneLine
  have readsMagic : readLine (0, "unknown") magic = (0, "unknown") := by
    decide
  have readsGeneration : readLine (0, "unknown")
      ("generation: ".toList ++ Nat.toDigits 10 generation.toNat) =
        (generation, "unknown") := by
    unfold readLine
    rw [dropPrefix?_append_of_beq _ (beq_self_eq_true _)]
    simp [parse_toDigits]
  have keepsGeneration : (readLine (generation, "unknown")
        ("holder: ".toList ++ holder.toList)).1 = generation := by
    unfold readLine
    have isNone : ("holder: ".toList ++ holder.toList).dropPrefix?
        "generation: ".toList = none := by
      simp [dropPrefix?]
    rw [isNone]
    dsimp only
    split <;> rfl
  rw [readText, inLines, textLines_append_newline magicLine, textLines_append_newline
    generationLine, textLines_append_newline holderLine, textLines]
  simp only [foldl_cons, foldl_nil, readsMagic, readsGeneration, keepsGeneration]

variable {text : List Char} {generation : UInt64} {generations : List UInt64}
  {id : Nat} {state : State} {client : Client} {config : Nat → Config}

theorem readText_of_whole
    (whole : ∃ holder : String, OneLine holder.toList ∧
      text ++ ([] : List (List Char)).flatten = (pieces generation holder).flatten) :
    (readText text).1 = generation := by
  obtain ⟨holder, oneLine, completes⟩ := whole
  rw [flatten_nil, append_nil] at completes
  rw [completes]
  exact readText_pieces generation oneLine

theorem recorded_of_named
    (named : (readText text).1 = generation)
    (last : ∀ earlier ∈ generations, earlier ≤ generation) :
    Recorded generations text := by
  intro earlier member
  rw [named]
  exact last earlier member

/-! ## The invariant -/

/-- A client that has nothing to do with the lock. -/
def Client.Outside (client : Client) : Prop := client.held = none ∧
    (client.phase = .idle ∨ client.phase = .opening ∨
      client.phase = .opened ∨ client.phase = .refused ∨ client.phase = .stopped)

/-- A purpose may write a generation after the terms so far. -/
def Purpose.Allows (generations : List UInt64) (generation : UInt64) : Purpose → Prop
  | acquire => ∀ earlier ∈ generations, Raised earlier generation
  | release => ∀ earlier ∈ generations, earlier ≤ generation

/-- What the client that has the lock has come to. -/
inductive Client.Owns (generations : List UInt64) (text : List Char) :
    Client → Prop where
  | holding {client : Client} {term : Term} (phase : client.phase = .idle)
      (held : client.held = some term)
      (recorded : Recorded generations text)
      (last : ∀ earlier ∈ generations, earlier ≤ term.generation) :
      Owns generations text client
  | locked {client : Client} (phase : client.phase = .locked)
      (held : client.held = none)
      (recorded : Recorded generations text) :
      Owns generations text client
  | truncating {client : Client} {purpose : Purpose} {generation : UInt64}
      (phase : client.phase = .truncating purpose generation)
      (held : client.held = none)
      (recorded : Recorded generations text)
      (allowed : purpose.Allows generations generation) :
      Owns generations text client
  | writing {client : Client} {purpose : Purpose} {generation : UInt64}
      {left : List (List Char)}
      {holder : String}
      (phase : client.phase = .writing purpose generation left)
      (held : client.held = none)
      (oneLine : OneLine holder.toList)
      (completes : text ++ left.flatten = (pieces generation holder).flatten)
      (allowed : purpose.Allows generations generation) :
      Owns generations text client
  | unlocking {client : Client} (phase : client.phase = .unlocking)
      (held : client.held = none)
      (recorded : Recorded generations text) :
      Owns generations text client

/-- What holds between two steps. -/
structure Sound (state : State) : Prop where
  raised : state.generations.Pairwise Raised
  free : state.lock = none → Recorded state.generations state.contents
  owner : ∀ id, state.lock = some id →
    (state.clients id).Owns state.generations state.contents
  others : ∀ id, state.lock ≠ some id → (state.clients id).Outside

@[simp] theorem State.set_clients_self
    (state : State) (id : Nat) (client : Client) :
    (state.set id client).clients id = client :=
  if_pos rfl

theorem State.set_clients_other
    (state : State) {id other : Nat}
    (different : other ≠ id)
    (client : Client) :
    (state.set id client).clients other = state.clients other :=
  if_neg different

theorem Sound.lock_of_not_outside
    (sound : Sound state)
    (inside : ¬(state.clients id).Outside) :
    state.lock = some id :=
  Classical.byContradiction (fun other => inside (sound.others id other))

theorem Client.Owns.not_outside
    (owns : client.Owns generations text) :
    ¬client.Outside := by
  rintro ⟨notHeld, phases⟩
  cases owns with
  | holding phase held recorded last =>
      rw [held] at notHeld
      cases notHeld
  | locked phase held recorded
  | truncating phase held recorded allowed
  | writing phase held oneLine completes allowed
  | unlocking phase held recorded => simp [phase] at phases

theorem Client.Owns.recorded_of_phase
    (owns : client.Owns generations text)
    (whole : ∀ purpose generation left,
      client.phase = .writing purpose generation left → Recorded generations text) :
    Recorded generations text := by
  cases owns with
  | writing phase held oneLine completes allowed => exact whole _ _ _ phase
  | _ phase held recorded => exact recorded

section

variable
  {next : State} {now : Int} (sound : Sound state)

include sound

section

variable
  (clients : next.clients = (state.set id client).clients)

include clients

/-- A client moves on and keeps its side of the lock. -/
theorem Sound.update
    (lock : next.lock = state.lock)
    (contents : next.contents = state.contents)
    (generations : next.generations = state.generations)
    (outside : (state.clients id).Outside → client.Outside)
    (owns : (state.clients id).Owns state.generations state.contents →
      client.Owns state.generations state.contents) :
    Sound next := by
  refine ⟨?_, ?_, ?_, ?_⟩
  · rw [generations]
    exact sound.raised
  · intro free
    rw [lock] at free
    rw [generations, contents]
    exact sound.free free
  · intro other isOwner
    rw [lock] at isOwner
    rw [generations, contents, clients]
    by_cases same : other = id
    · subst same
      rw [State.set_clients_self]
      exact owns (sound.owner other isOwner)
    · rw [State.set_clients_other _ same]
      exact sound.owner other isOwner
  · intro other notOwner
    rw [lock] at notOwner
    rw [clients]
    by_cases same : other = id
    · subst same
      rw [State.set_clients_self]
      exact outside (sound.others other notOwner)
    · rw [State.set_clients_other _ same]
      exact sound.others other notOwner

theorem Sound.outside
    (lock : next.lock = state.lock)
    (contents : next.contents = state.contents)
    (generations : next.generations = state.generations)
    (before : (state.clients id).Outside) (after : client.Outside) :
    Sound next :=
  sound.update clients lock contents generations (fun _ => after)
    (fun owns => absurd before owns.not_outside)

theorem Sound.answer
    (lock : next.lock = state.lock)
    (contents : next.contents = state.contents)
    (generations : next.generations = state.generations)
    (phase : client.phase = (state.clients id).phase)
    (held : client.held = (state.clients id).held) :
    Sound next := by
  refine sound.update clients lock contents generations ?_ ?_
  · intro before
    unfold Client.Outside
    rw [held, phase]
    exact before
  · intro owns
    cases owns with
    | holding isPhase isHeld recorded last =>
        exact .holding (phase.trans isPhase) (held.trans isHeld) recorded last
    | locked isPhase isHeld recorded =>
        exact .locked (phase.trans isPhase) (held.trans isHeld) recorded
    | truncating isPhase isHeld recorded allowed =>
        exact .truncating (phase.trans isPhase) (held.trans isHeld) recorded allowed
    | writing isPhase isHeld oneLine completes allowed =>
        exact .writing (phase.trans isPhase) (held.trans isHeld) oneLine
          completes allowed
    | unlocking isPhase isHeld recorded =>
        exact .unlocking (phase.trans isPhase) (held.trans isHeld) recorded

theorem Sound.owned
    (mine : state.lock = none ∨ state.lock = some id)
    (lock : next.lock = some id)
    (raised : next.generations.Pairwise Raised)
    (owns : client.Owns next.generations next.contents) :
    Sound next := by
  refine ⟨raised, ?_, ?_, ?_⟩
  · intro free
    rw [lock] at free
    cases free
  · intro other isOwner
    rw [lock] at isOwner
    cases isOwner
    rw [clients, State.set_clients_self]
    exact owns
  · intro other notOwner
    have different : other ≠ id := by
      rintro rfl
      exact notOwner lock
    rw [clients, State.set_clients_other _ different]
    refine sound.others other ?_
    rcases mine with free | isMine
    · rw [free]
      rintro ⟨⟩
    · rw [isMine]
      rintro ⟨⟩
      exact different rfl

theorem Sound.freed
    (mine : state.lock = some id)
    (lock : next.lock = none)
    (generations : next.generations = state.generations)
    (recorded : Recorded next.generations next.contents)
    (outside : client.Outside) :
    Sound next := by
  refine ⟨?_, fun _ => recorded, ?_, ?_⟩
  · rw [generations]
    exact sound.raised
  · intro other isOwner
    rw [lock] at isOwner
    cases isOwner
  · intro other _
    rw [clients]
    by_cases same : other = id
    · subst same
      rw [State.set_clients_self]
      exact outside
    · rw [State.set_clients_other _ same]
      refine sound.others other ?_
      rw [mine]
      rintro ⟨⟩
      exact same rfl

end

theorem Sound.of_locked
    (isPhase : (state.clients id).phase = .locked) :
    state.lock = some id ∧ (state.clients id).held = none ∧
      Recorded state.generations state.contents := by
  have isMine : state.lock = some id := by
    refine sound.lock_of_not_outside ?_
    simp [Client.Outside, isPhase]
  cases sound.owner id isMine with
  | locked phase held recorded => exact ⟨isMine, held, recorded⟩
  | _ phase => simp [isPhase] at phase

theorem Sound.of_truncating
    {purpose : Purpose}
    (isPhase : (state.clients id).phase = .truncating purpose generation) :
    state.lock = some id ∧ (state.clients id).held = none ∧
      Recorded state.generations state.contents ∧
        purpose.Allows state.generations generation := by
  have isMine : state.lock = some id := by
    refine sound.lock_of_not_outside ?_
    simp [Client.Outside, isPhase]
  cases sound.owner id isMine with
  | truncating phase held recorded allowed =>
      rw [isPhase] at phase
      cases phase
      exact ⟨isMine, held, recorded, allowed⟩
  | _ phase => simp [isPhase] at phase

theorem Sound.of_writing
    {purpose : Purpose} {left : List (List Char)}
    (isPhase : (state.clients id).phase = .writing purpose generation left) :
    state.lock = some id ∧ (state.clients id).held = none ∧
      (∃ holder : String, OneLine holder.toList ∧
        state.contents ++ left.flatten = (pieces generation holder).flatten) ∧
        purpose.Allows state.generations generation := by
  have isMine : state.lock = some id := by
    refine sound.lock_of_not_outside ?_
    simp [Client.Outside, isPhase]
  cases sound.owner id isMine with
  | writing phase held oneLine completes allowed =>
      rw [isPhase] at phase
      cases phase
      exact ⟨isMine, held, ⟨_, oneLine, completes⟩, allowed⟩
  | _ phase => simp [isPhase] at phase

theorem Sound.of_unlocking
    (isPhase : (state.clients id).phase = .unlocking) :
    state.lock = some id ∧ (state.clients id).held = none ∧
      Recorded state.generations state.contents := by
  have isMine : state.lock = some id := by
    refine sound.lock_of_not_outside ?_
    simp [Client.Outside, isPhase]
  cases sound.owner id isMine with
  | unlocking phase held recorded => exact ⟨isMine, held, recorded⟩
  | _ phase => simp [isPhase] at phase

theorem Sound.of_held
    {term : Term}
    (isHeld : (state.clients id).held = some term) :
    state.lock = some id ∧ Recorded state.generations state.contents ∧
      ∀ earlier ∈ state.generations, earlier ≤ term.generation := by
  have isMine : state.lock = some id := by
    refine sound.lock_of_not_outside ?_
    simp [Client.Outside, isHeld]
  cases sound.owner id isMine with
  | holding phase held recorded last =>
      rw [isHeld] at held
      cases held
      exact ⟨isMine, recorded, last⟩
  | _ phase held => simp [isHeld] at held

theorem Sound.outside_of_phase
    (phase : (state.clients id).phase = .opening ∨ (state.clients id).phase = .opened ∨
        (state.clients id).phase = .refused) :
    (state.clients id).Outside := by
  by_cases isMine : state.lock = some id
  · have owns := sound.owner id isMine
    cases owns with
    | _ isPhase => simp [isPhase] at phase
  · exact sound.others id isMine

attribute [local simp] step

theorem sound_of_acquire
    (stepped : step config state (.acquire id) = some next) :
    Sound next := by
  simp only [step] at stepped
  split at stepped
  · cases stepped
    exact sound.answer rfl rfl rfl rfl rfl rfl
  · rename_i isPhase isHeld
    cases stepped
    refine sound.update rfl rfl rfl rfl ?_ ?_
    · intro _
      exact ⟨isHeld, Or.inr (Or.inl rfl)⟩
    · intro owns
      exact absurd ⟨isHeld, Or.inl isPhase⟩ owns.not_outside
  · cases stepped

theorem sound_of_openFile
    (stepped : step config state (.openFile id) = some next) :
    Sound next := by
  simp only [step] at stepped
  split at stepped
  · rename_i isPhase
    cases stepped
    have before := sound.outside_of_phase (Or.inl isPhase)
    exact sound.outside rfl rfl rfl rfl before
      ⟨before.1, Or.inr (Or.inr (Or.inl rfl))⟩
  · cases stepped

theorem sound_of_tryLock
    (stepped : step config state (.tryLock id) = some next) :
    Sound next := by
  simp only [step] at stepped
  split at stepped
  · rename_i isPhase isFree
    cases stepped
    have before := sound.outside_of_phase (Or.inr (Or.inl isPhase))
    refine sound.owned rfl (Or.inl isFree) rfl sound.raised ?_
    exact .locked rfl before.1 (sound.free isFree)
  · rename_i isPhase isTaken
    cases stepped
    have before := sound.outside_of_phase (Or.inr (Or.inl isPhase))
    exact sound.outside rfl rfl rfl rfl before
      ⟨before.1, Or.inr (Or.inr (Or.inr (Or.inl rfl)))⟩
  · cases stepped

theorem sound_of_read
    (stepped : step config state (.read id now) = some next) :
    Sound next := by
  simp only [step] at stepped
  split at stepped
  · rename_i isPhase
    cases stepped
    have before := sound.outside_of_phase (Or.inr (Or.inr isPhase))
    exact sound.outside rfl rfl rfl rfl before ⟨before.1, Or.inl rfl⟩
  · rename_i isPhase
    cases stepped
    obtain ⟨isMine, held, recorded⟩ := sound.of_locked isPhase
    refine sound.owned rfl (Or.inr isMine) isMine sound.raised ?_
    refine .truncating rfl held recorded ?_
    intro earlier member
    exact raised_nextGeneration (recorded earlier member)
  · cases stepped

theorem sound_of_truncate
    (stepped : step config state (.truncate id) = some next) :
    Sound next := by
  simp only [step] at stepped
  split at stepped
  · rename_i purpose generation isPhase
    cases stepped
    obtain ⟨isMine, held, -, allowed⟩ := sound.of_truncating isPhase
    refine sound.owned rfl (Or.inr isMine) isMine sound.raised ?_
    exact .writing rfl held (oneLine_holder (config id) purpose)
      (nil_append _) allowed
  · cases stepped

theorem sound_of_write
    (stepped : step config state (.write id) = some next) :
    Sound next := by
  simp only [step] at stepped
  split at stepped
  · rename_i purpose generation piece left isPhase
    cases stepped
    obtain ⟨isMine, held, ⟨holder, oneLine, completes⟩, allowed⟩ :=
      sound.of_writing isPhase
    refine sound.owned rfl (Or.inr isMine) isMine sound.raised ?_
    refine .writing rfl held oneLine ?_ allowed
    rw [flatten_cons, ← append_assoc] at completes
    exact completes
  · cases stepped

theorem sound_of_finish
    (stepped : step config state (.finish id now) = some next) :
    Sound next := by
  simp only [step] at stepped
  split at stepped
  · rename_i generation isPhase
    cases stepped
    obtain ⟨isMine, held, whole, allowed⟩ := sound.of_writing isPhase
    have named := readText_of_whole whole
    refine sound.owned rfl (Or.inr isMine) isMine ?_ ?_
    · refine pairwise_append.mpr ⟨sound.raised, pairwise_singleton _ _, ?_⟩
      intro earlier member later isLater
      rw [mem_singleton.mp isLater]
      exact allowed earlier member
    · have last : ∀ earlier ∈ state.generations ++ [generation],
          earlier ≤ generation := by
        intro earlier member
        rcases mem_append.mp member with older | isNew
        · exact (allowed earlier older).1
        · rw [mem_singleton.mp isNew]
          exact UInt64.le_refl _
      exact .holding rfl rfl (recorded_of_named named last) last
  · rename_i generation isPhase
    cases stepped
    obtain ⟨isMine, held, whole, allowed⟩ := sound.of_writing isPhase
    have named := readText_of_whole whole
    refine sound.owned rfl (Or.inr isMine) isMine sound.raised ?_
    exact .unlocking rfl held (recorded_of_named named allowed)
  · cases stepped

theorem sound_of_renew
    (stepped : step config state (.renew id now) = some next) :
    Sound next := by
  simp only [step] at stepped
  split at stepped
  · rename_i term isPhase isHeld
    cases stepped
    obtain ⟨isMine, recorded, last⟩ := sound.of_held isHeld
    refine sound.owned rfl (Or.inr isMine) isMine sound.raised ?_
    exact .holding isPhase rfl recorded last
  · cases stepped
    exact sound.answer rfl rfl rfl rfl rfl rfl
  · cases stepped

theorem sound_of_release
    (stepped : step config state (.release id) = some next) :
    Sound next := by
  simp only [step] at stepped
  split at stepped
  · rename_i term isPhase isHeld
    cases stepped
    obtain ⟨isMine, recorded, last⟩ := sound.of_held isHeld
    refine sound.owned rfl (Or.inr isMine) isMine sound.raised ?_
    exact .truncating rfl rfl recorded last
  · cases stepped
    exact sound.answer rfl rfl rfl rfl rfl rfl
  · cases stepped

theorem sound_of_unlock
    (stepped : step config state (.unlock id) = some next) :
    Sound next := by
  simp only [step] at stepped
  split at stepped
  · rename_i isPhase
    cases stepped
    obtain ⟨isMine, held, recorded⟩ := sound.of_unlocking isPhase
    exact sound.freed rfl isMine rfl rfl recorded ⟨held, Or.inl rfl⟩
  · cases stepped

theorem sound_of_fail
    {detail : String}
    (stepped : step config state (.fail id detail now) = some next)
    (recoverable : Recoverable state (.fail id detail now)) :
    Sound next := by
  obtain ⟨whole, unread⟩ := recoverable id (Or.inr ⟨detail, now, rfl⟩)
  simp only [step] at stepped
  split at stepped
  · rename_i isPhase
    cases stepped
    have before := sound.outside_of_phase (Or.inl isPhase)
    exact sound.outside rfl rfl rfl rfl before ⟨before.1, Or.inl rfl⟩
  · rename_i isPhase
    cases stepped
    have before := sound.outside_of_phase (Or.inr (Or.inr isPhase))
    exact sound.outside rfl rfl rfl rfl before ⟨before.1, Or.inl rfl⟩
  · rename_i isPhase
    cases stepped
    obtain ⟨isMine, held, recorded⟩ := sound.of_locked isPhase
    refine sound.owned rfl (Or.inr isMine) isMine sound.raised ?_
    refine .truncating rfl held recorded ?_
    have isNone : state.generations = [] := unread (by rintro ⟨⟩) isPhase
    intro earlier member
    have inNone : earlier ∈ ([] : List UInt64) := isNone ▸ member
    cases inNone
  · rename_i isPhase
    cases stepped
    obtain ⟨isMine, held, recorded, -⟩ := sound.of_truncating isPhase
    exact sound.freed rfl isMine rfl rfl recorded ⟨held, Or.inl rfl⟩
  · rename_i isPhase
    cases stepped
    obtain ⟨isMine, held, -, -⟩ := sound.of_writing isPhase
    exact sound.freed rfl isMine rfl rfl (whole _ _ _ isPhase) ⟨held, Or.inl rfl⟩
  · rename_i isPhase
    cases stepped
    obtain ⟨isMine, held, recorded, -⟩ := sound.of_truncating isPhase
    refine sound.owned rfl (Or.inr isMine) isMine sound.raised ?_
    exact .unlocking rfl held recorded
  · rename_i isPhase
    cases stepped
    obtain ⟨isMine, held, -, -⟩ := sound.of_writing isPhase
    refine sound.owned rfl (Or.inr isMine) isMine sound.raised ?_
    exact .unlocking rfl held (whole _ _ _ isPhase)
  · cases stepped

theorem sound_of_stop
    (stepped : step config state (.stop id) = some next)
    (recoverable : Recoverable state (.stop id)) :
    Sound next := by
  obtain ⟨whole, -⟩ := recoverable id (Or.inl rfl)
  simp only [step] at stepped
  split at stepped
  · cases stepped
  · cases stepped
    have stopped : Client.Outside { state.clients id with
        phase := .stopped, held := none, watch := .idle } :=
      ⟨rfl, Or.inr (Or.inr (Or.inr (Or.inr rfl)))⟩
    by_cases isMine : state.lock = some id
    · have owns := sound.owner id isMine
      exact sound.freed rfl isMine (if_pos isMine) rfl
        (owns.recorded_of_phase whole) stopped
    · exact sound.outside rfl (if_neg isMine) rfl rfl
        (sound.others id isMine) stopped

/-- Every step after which the record can be recovered keeps the invariant. -/
theorem sound_of_step
    {event : Event}
    (stepped : step config state event = some next)
    (recoverable : Recoverable state event) :
    Sound next := by
  cases event with
  | acquire id => exact sound_of_acquire sound stepped
  | openFile id => exact sound_of_openFile sound stepped
  | tryLock id => exact sound_of_tryLock sound stepped
  | read id now => exact sound_of_read sound stepped
  | truncate id => exact sound_of_truncate sound stepped
  | write id => exact sound_of_write sound stepped
  | finish id now => exact sound_of_finish sound stepped
  | renew id now => exact sound_of_renew sound stepped
  | release id => exact sound_of_release sound stepped
  | unlock id => exact sound_of_unlock sound stepped
  | observe id
  | observeOpen id
  | observeRead id now =>
      simp only [step] at stepped
      split at stepped <;> cases stepped
      all_goals exact sound.answer rfl rfl rfl rfl rfl rfl
  | fail id detail now => exact sound_of_fail sound stepped recoverable
  | stop id => exact sound_of_stop sound stepped recoverable

end

theorem contents_of_takesNothing
    {state next : State} {event : Event}
    (stepped : step config state event = some next)
    (takesNothing : TakesNothing state event) :
    next.contents = state.contents := by
  obtain ⟨id, now, rfl | rfl | rfl | rfl | ⟨rfl, isPhase⟩⟩ := takesNothing
  · simp only [step] at stepped
    split at stepped <;> cases stepped <;> rfl
  · simp only [step] at stepped
    split at stepped <;> cases stepped <;> rfl
  · simp only [step] at stepped
    split at stepped
    · cases stepped
      rfl
    · cases stepped
  · simp only [step] at stepped
    split at stepped <;> cases stepped <;> rfl
  · simp only [step, isPhase] at stepped
    cases stepped
    rfl

/--
The lease keeps its promises in every run in which no client stops or fails
with the record cut short.
-/
theorem keepsPromises_of_recoverable
    {config : Nat → Config} {file : Option (List Char)} {events : List Event}
    (along : LabelledRun.Along (step config) Recoverable (.new file) events) :
    KeepsPromises config file events := by
  intro front rest state parts reached
  have soundNew : Sound (.new file) := by
    refine ⟨.nil, ?_, ?_, ?_⟩
    · rintro _ generation ⟨⟩
    · rintro id ⟨⟩
    · intro id _
      exact ⟨rfl, Or.inl rfl⟩
  have sound : Sound state := by
    refine reached.holds_of_along ?_ (along.earlier parts) soundNew
    intro before event after stepped sound recoverable
    exact sound_of_step sound stepped recoverable
  refine ⟨?_, sound.raised, ?_⟩
  · intro first second isFirst isSecond
    obtain ⟨term, held⟩ := Option.isSome_iff_exists.mp isFirst
    obtain ⟨other, otherHeld⟩ := Option.isSome_iff_exists.mp isSecond
    have lock := (sound.of_held held).1
    rw [(sound.of_held otherHeld).1] at lock
    exact (Option.some.inj lock).symm
  · intro event next stepped takesNothing
    exact contents_of_takesNothing stepped takesNothing

/-! ## A record cut short -/

/-- Clients of one make. -/
def nodes (_ : Nat) : Config where
  label := "node"
  termLength := 15

/-- A client takes the lease. -/
def takes (id : Nat) : List Event :=
  [.acquire id, .openFile id, .tryLock id, .read id 0, .truncate id,
    .write id, .write id, .write id, .write id, .write id, .write id,
    .finish id 0]

/-- A client stops after it has truncated the record. -/
def stopsShort (id : Nat) : List Event :=
  [.acquire id, .openFile id, .tryLock id, .read id 0, .truncate id, .stop id]

/-- A client that stops while it holds the lease leaves the record whole. -/
theorem keepsPromises_takes_stop :
    KeepsPromises nodes none (takes 0 ++ [.stop 0]) := by
  refine keepsPromises_of_recoverable ?_
  have taken : ((takes 0).foldlM (step nodes) (.new none)).isSome = true := by
    decide
  have run : LabelledRun (step nodes) (.new none) (takes 0)
      (((takes 0).foldlM (step nodes) (.new none)).get taken) :=
    .of_foldlM (Option.eq_some_of_isSome _)
  refine LabelledRun.Along.append ?_ run ?_
  · intro front event rest state parts _ id stops
    have member : event ∈ takes 0 := by simp [parts]
    rcases stops with rfl | ⟨detail, now, rfl⟩
    · simp [takes] at member
    · simp [takes] at member
  · have isIdle : ((((takes 0).foldlM (step nodes) (.new none)).get
        (by decide)).clients 0).phase = .idle := by
      decide
    intro front event rest state parts reached id stops
    obtain ⟨rfl, rfl, rfl⟩ : front = [] ∧ event = .stop 0 ∧ rest = [] := by
      cases front with
      | nil =>
          cases parts
          exact ⟨rfl, rfl, rfl⟩
      | cons label front => simp at parts
    obtain rfl : id = 0 := by
      rcases stops with same | ⟨_, _, same⟩
      · cases same
        rfl
      · cases same
    cases reached
    refine ⟨?_, fun other => absurd rfl other⟩
    intro purpose generation left isPhase
    exact absurd (isIdle.symm.trans isPhase) (by rintro ⟨⟩)

/-- Three clients, and the second stops short. -/
def repeatsGeneration : List Event := takes 0 ++ [.stop 0] ++ stopsShort 1 ++ takes 2

/-- A client that stops with the record truncated lets a generation repeat. -/
theorem not_keepsPromises_repeatsGeneration :
    ¬∀ (config : Nat → Config) (file : Option (List Char))
      (events : List Event), KeepsPromises config file events := by
  intro always
  have taken : (repeatsGeneration.foldlM (step nodes) (.new none)).isSome = true := by
    decide
  have run : LabelledRun (step nodes) (.new none) repeatsGeneration
      ((repeatsGeneration.foldlM (step nodes) (.new none)).get taken) :=
    .of_foldlM (Option.eq_some_of_isSome _)
  have raised := (always nodes none repeatsGeneration repeatsGeneration [] _
    (append_nil _).symm run).raised
  have repeated : ((repeatsGeneration.foldlM (step nodes) (.new none)).get
      (by decide)).generations = [1, 1] := by
    decide
  rw [repeated] at raised
  have above : Raised 1 1 := pairwise_pair.mp raised
  exact absurd (above.2 (by decide)) (by decide)

end FileLease

end SlateOrm
