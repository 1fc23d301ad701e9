import SlateOrm.ObjectLease

namespace SlateOrm

open List

/-!
# What the object-store lease promises

Over every interleaving of the clients' requests, generations rise in the order
the acquisitions land, one client at most holds the stored version, and a write
that replaces another client's term is an acquisition of a term that has run
out.  The invariant says of every version what stood under it, and of every
request in flight which version it was made for.
-/

open Lease

namespace ObjectLease

variable
  {Id : Type}

/-- A write in flight, given up or not. -/
def Pending (state : State Id) (request : Request Id) : Prop :=
  (∃ id, (state.clients id).phase = .putting request .flying) ∨ request ∈ state.strays

/-- The promises of the lease in one state. -/
structure Promises (state : State Id) : Prop where
  raised : state.acquisitions.Pairwise Raised
  /-- No two clients hold the version that is stored. -/
  exclusive : ∀ stored first second firstHeld secondHeld,
    state.object = some stored → (state.clients first).held = some firstHeld →
        (state.clients second).held = some secondHeld →
          firstHeld.version = stored.version →
            secondHeld.version = stored.version → first = second
  /--
  A write that the store would take now, and that replaces another client's
  term, is an acquisition, and the term has run out by the acquirer's clock.
  -/
  replaces : ∀ request stored,
    Pending state request → accepts state.object request.mode = true →
      state.object = some stored → stored.author ≠ request.client →
        ∃ now, request.purpose = .acquire now ∧
          ∀ term, decode stored.text = .ok term → isLiveAt term now = false

/-- Every state of every run keeps the promises. -/
def KeepsPromises [DecidableEq Id] (config : Id → Config) : Prop :=
  ∀ (events : List (Event Id)) (state : State Id),
    LabelledRun (step config) .new events state → Promises state

/-! ## The invariant -/

/-- What a request knows about the write that it replaces. -/
def Request.Follows (config : Id → Config) (request : Request Id)
    (stored : Stored Id) : Prop :=
  match request.purpose with
  | .acquire now =>
      ∃ current, decode stored.text = .ok current ∧
        request.term.generation = nextGeneration current.generation ∧
          (current.holder = (config request.client).holder ∨
            isLiveAt current now = false)
  | _ =>
      stored.author = request.client ∧ ∃ before : Term, stored.text = encode before ∧
          before.holder = (config request.client).holder ∧
            before.generation = request.term.generation

/-- A request was made for a version that it knows about. -/
structure Request.Sound (config : Id → Config) (history : List (Stored Id))
    (request : Request Id) : Prop where
  holder : request.term.holder = (config request.client).holder
  create : request.mode = .create → ∃ now, request.purpose = .acquire now
  update : ∀ version, request.mode = .update version →
    ∃ stored ∈ history, stored.version = version ∧ request.Follows config stored

/-- A version that a client wrote. -/
def Wrote (config : Id → Config) (history : List (Stored Id)) (id : Id)
    (term : Term) (version : Nat) : Prop :=
  term.holder = (config id).holder ∧
    ∃ stored ∈ history, stored.version = version ∧ stored.author = id ∧
      stored.text = encode term

/-- What holds of a client between two steps. -/
structure Client.Sound (config : Id → Config) (history : List (Stored Id))
    (id : Id) (client : Client Id) : Prop where
  held : ∀ held, client.held = some held →
    Wrote config history id held.term held.version
  putting : ∀ request progress, client.phase = .putting request progress →
    request.client = id ∧ request.Sound config history ∧
      ∀ version, progress = .landed version →
        Wrote config history id request.term version

/-- What holds of the store between two steps. -/
structure StoreSound (config : Id → Config) (object : Option (Stored Id))
    (history : List (Stored Id)) (acquisitions : List UInt64) : Prop where
  written : ∀ stored ∈ history, ∃ term : Term, stored.text = encode term ∧
    term.holder = (config stored.author).holder
  functional : ∀ first ∈ history, ∀ second ∈ history,
    first.version = second.version → first.text = second.text
  current : ∀ stored, object = some stored → stored ∈ history
  raised : acquisitions.Pairwise Raised
  empty : object = none → acquisitions = []
  last : ∀ stored term, object = some stored → stored.text = encode term →
    term.holder = (config stored.author).holder →
      ∀ earlier ∈ acquisitions, earlier ≤ term.generation

/-- What holds between two steps. -/
structure Sound (config : Id → Config) (state : State Id) : Prop where
  store : StoreSound config state.object state.history state.acquisitions
  clients : ∀ id, (state.clients id).Sound config state.history id
  strays : ∀ request ∈ state.strays, request.Sound config state.history

section Invariant

variable
  {config : Id → Config}

variable {history : List (Stored Id)} {request : Request Id} {id : Id}
  {term : Term} {version : Nat} {client : Client Id}
  {object : Option (Stored Id)} {acquisitions : List UInt64} {state : State Id}

theorem Request.Sound.mono
    (sound : request.Sound config history)
    (added : List (Stored Id)) :
    request.Sound config (history ++ added) := by
  refine ⟨sound.holder, sound.create, ?_⟩
  intro version isUpdate
  obtain ⟨stored, member, isVersion, follows⟩ := sound.update version isUpdate
  exact ⟨stored, mem_append_left _ member, isVersion, follows⟩

theorem Wrote.mono
    (wrote : Wrote config history id term version) (added : List (Stored Id)) :
    Wrote config (history ++ added) id term version := by
  obtain ⟨isHolder, stored, member, rest⟩ := wrote
  exact ⟨isHolder, stored, mem_append_left _ member, rest⟩

theorem Client.Sound.mono
    (sound : client.Sound config history id)
    (added : List (Stored Id)) :
    client.Sound config (history ++ added) id := by
  refine ⟨?_, ?_⟩
  · intro held isHeld
    exact (sound.held held isHeld).mono added
  · intro request progress isPhase
    obtain ⟨isClient, isSound, landed⟩ := sound.putting request progress isPhase
    refine ⟨isClient, isSound.mono added, ?_⟩
    intro version isLanded
    exact (landed version isLanded).mono added

theorem follows_of_accepts
    {stored : Stored Id}
    (store : StoreSound config object history acquisitions)
    (sound : request.Sound config history)
    (accepted : accepts object request.mode = true)
    (isObject : object = some stored) :
    ∃ base ∈ history, base.text = stored.text ∧ request.Follows config base := by
  cases isMode : request.mode with
  | create => simp [accepts, isMode, isObject] at accepted
  | update version =>
      obtain ⟨base, member, isVersion, follows⟩ := sound.update version isMode
      have sameVersion : stored.version = version := by
        simpa [accepts, isMode, isObject] using accepted
      refine ⟨base, member, ?_, follows⟩
      exact store.functional base member stored
        (store.current stored isObject) (isVersion.trans sameVersion.symm)

theorem author_eq_of_text_eq
    (distinct : ∀ first second,
      (config first).holder = (config second).holder → first = second)
    (store : StoreSound config object history acquisitions)
    {first second : Stored Id}
    (isFirst : first ∈ history)
    (isSecond : second ∈ history)
    (same : first.text = second.text) :
    first.author = second.author := by
  obtain ⟨firstTerm, firstText, firstHolder⟩ := store.written first isFirst
  obtain ⟨secondTerm, secondText, secondHolder⟩ := store.written second isSecond
  have plainFirst : Plain firstTerm.holder.toList := by
    rw [firstHolder]
    exact plain_holder _
  have plainSecond : Plain secondTerm.holder.toList := by
    rw [secondHolder]
    exact plain_holder _
  have sameText : encode firstTerm = encode secondTerm := by
    rw [← firstText, ← secondText, same]
  refine distinct _ _ ?_
  rw [← firstHolder, ← secondHolder]
  exact (eq_of_encode_eq plainFirst plainSecond sameText).2

theorem plain_of_holder
    (isHolder : term.holder = (config id).holder) :
    Plain term.holder.toList := by
  rw [isHolder]
  exact plain_holder _

/-- A write keeps the last generation, and an acquisition raises it. -/
theorem generation_of_accepts
    (store : StoreSound config object history acquisitions)
    (sound : request.Sound config history)
    (accepted : accepts object request.mode = true)
    {earlier : UInt64}
    (member : earlier ∈ acquisitions) :
    earlier ≤ request.term.generation ∧ ((∃ now, request.purpose = .acquire now) →
        Raised earlier request.term.generation) := by
  cases isObject : object with
  | none =>
      rw [store.empty isObject] at member
      cases member
  | some stored =>
      obtain ⟨base, isBase, sameText, follows⟩ :=
        follows_of_accepts store sound accepted isObject
      have isStored := store.current stored isObject
      obtain ⟨written, isText, isHolder⟩ := store.written stored isStored
      have within : earlier ≤ written.generation :=
        store.last stored written isObject isText isHolder earlier member
      rw [isText] at sameText
      unfold Request.Follows at follows
      split at follows
      · rename_i now isPurpose
        obtain ⟨current, decoded, isNext, -⟩ := follows
        rw [sameText] at decoded
        have sameGeneration :=
          (eq_of_decode_encode (plain_of_holder isHolder) decoded).1
        have raised : Raised earlier request.term.generation := by
          rw [isNext, sameGeneration]
          exact raised_nextGeneration within
        exact ⟨raised.1, fun _ => raised⟩
      · rename_i notAcquire
        obtain ⟨-, before, isBefore, beforeHolder, isGeneration⟩ := follows
        have same : before.generation = written.generation :=
          (eq_of_encode_eq (plain_of_holder beforeHolder)
            (plain_of_holder isHolder) (isBefore.symm.trans sameText)).1
        refine ⟨?_, ?_⟩
        · rw [← isGeneration, same]
          exact within
        · rintro ⟨now, isAcquire⟩
          exact absurd isAcquire (notAcquire now)

/-- The store is in order after it has taken a write. -/
theorem StoreSound.put
    [DecidableEq Id]
    (store : StoreSound config state.object state.history state.acquisitions)
    (sound : request.Sound config state.history)
    (accepted : accepts state.object request.mode = true)
    (assigned : Assigns state.history version (encode request.term)) :
    StoreSound config (state.put request version).object
      (state.put request version).history
      (state.put request version).acquisitions := by
  have kept : ∀ earlier ∈ state.acquisitions, earlier ≤ request.term.generation :=
    fun earlier member => (generation_of_accepts store sound accepted member).1
  have inHistory : ∀ stored ∈ (state.put request version).history,
      stored ∈ state.history ∨
        stored = ⟨version, encode request.term, request.client⟩ := by
    intro stored member
    simpa [State.put] using member
  refine ⟨?_, ?_, ?_, ?_, ?_, ?_⟩
  · intro stored member
    rcases inHistory stored member with older | rfl
    · exact store.written stored older
    · exact ⟨request.term, rfl, sound.holder⟩
  · intro first isFirst second isSecond same
    rcases inHistory first isFirst with older | rfl
    · rcases inHistory second isSecond with alsoOlder | rfl
      · exact store.functional first older second alsoOlder same
      · exact assigned first older same
    · rcases inHistory second isSecond with alsoOlder | rfl
      · exact (assigned second alsoOlder same.symm).symm
      · rfl
  · rintro stored ⟨⟩
    exact mem_append_right _ (mem_singleton_self _)
  · unfold State.put
    dsimp only
    split
    · rename_i now isPurpose
      refine pairwise_append.mpr ⟨store.raised, pairwise_singleton _ _, ?_⟩
      intro earlier member later isLater
      rw [mem_singleton.mp isLater]
      exact (generation_of_accepts store sound accepted member).2 ⟨now, isPurpose⟩
    · exact store.raised
  · rintro ⟨⟩
  · rintro stored term ⟨⟩ isText isHolder earlier member
    have same : request.term.generation = term.generation :=
      (eq_of_encode_eq (plain_of_holder sound.holder)
        (plain_of_holder isHolder) isText).1
    rw [← same]
    unfold State.put at member
    dsimp only at member
    split at member
    · rcases mem_append.mp member with older | isNew
      · exact kept earlier older
      · rw [mem_singleton.mp isNew]
        exact UInt64.le_refl _
    · exact kept earlier member

theorem Sound.put
    [DecidableEq Id]
    (sound : Sound config state)
    (isSound : request.Sound config state.history)
    (accepted : accepts state.object request.mode = true)
    (assigned : Assigns state.history version (encode request.term)) :
    Sound config (state.put request version) := by
  refine ⟨sound.store.put isSound accepted assigned, ?_, ?_⟩
  · intro id
    exact (sound.clients id).mono _
  · intro other member
    exact (sound.strays other member).mono _

theorem Sound.set
    [DecidableEq Id]
    (sound : Sound config state)
    (isSound : client.Sound config state.history id) :
    Sound config (state.set id client) := by
  refine ⟨sound.store, ?_, sound.strays⟩
  intro other
  by_cases same : other = id
  · subst same
    simpa [State.set] using isSound
  · simpa [State.set, same] using sound.clients other

section

variable
  {client after : Client Id}
  (sound : client.Sound config history id)
  (held : after.held = client.held ∨ after.held = none)

include sound held

theorem Client.Sound.rest
    (waits : ∀ request progress, after.phase ≠ .putting request progress) :
    after.Sound config history id := by
  refine ⟨?_, ?_⟩
  · intro kept isKept
    rcases held with same | isNone
    · exact sound.held kept (same ▸ isKept)
    · rw [isNone] at isKept
      cases isKept
  · intro request progress isPhase
    exact absurd isPhase (waits request progress)

theorem Client.Sound.send
    (isPhase : after.phase = .putting request .flying)
    (isClient : request.client = id)
    (isSound : request.Sound config history) :
    after.Sound config history id := by
  refine ⟨?_, ?_⟩
  · intro kept isKept
    rcases held with same | isNone
    · exact sound.held kept (same ▸ isKept)
    · rw [isNone] at isKept
      cases isKept
  · intro other progress isOther
    rw [isPhase] at isOther
    cases isOther
    refine ⟨isClient, isSound, ?_⟩
    rintro version ⟨⟩

end

theorem sound_acquireGot
    (store : StoreSound config object history acquisitions)
    (sound : client.Sound config history id)
    (now : Int) :
    (acquireGot (config id) id client now object).Sound config history id := by
  cases isObject : object with
  | none =>
      refine sound.send (Or.inl rfl) rfl rfl ⟨rfl, fun _ => ⟨now, rfl⟩, ?_⟩
      rintro version ⟨⟩
  | some stored =>
      cases decoded : decode stored.text with
      | error error =>
          simp only [acquireGot, decoded]
          exact sound.rest (Or.inl rfl) (by rintro _ _ ⟨⟩)
      | ok current =>
          simp only [acquireGot, decoded]
          split
          · exact sound.rest (Or.inr rfl) (by rintro _ _ ⟨⟩)
          · rename_i mayTake
            refine sound.send (Or.inl rfl) rfl rfl ⟨rfl, ?_, ?_⟩
            · rintro ⟨⟩
            · rintro version ⟨⟩
              refine ⟨stored, store.current stored isObject, rfl, ?_⟩
              refine ⟨current, decoded, rfl, ?_⟩
              rcases not_and_or.mp mayTake with same | expired
              · exact Or.inl (not_not.mp same)
              · exact Or.inr (Bool.eq_false_iff.mpr expired)

theorem sound_of_wrote
    {purpose : Purpose} {held : Held}
    (wrote : Wrote config history id held.term held.version)
    (notAcquire : ∀ now, purpose ≠ .acquire now)
    (isHolder : term.holder = (config id).holder)
    (isGeneration : term.generation = held.term.generation) :
    Request.Sound config history ⟨id, purpose, term, .update held.version⟩ := by
  refine ⟨isHolder, ?_, ?_⟩
  · rintro ⟨⟩
  · rintro version ⟨⟩
    obtain ⟨heldHolder, stored, member, isVersion, isAuthor, isText⟩ := wrote
    refine ⟨stored, member, isVersion, ?_⟩
    unfold Request.Follows
    split
    · rename_i now isPurpose
      exact absurd isPurpose (notAcquire now)
    · exact ⟨isAuthor, held.term, isText, heldHolder, isGeneration.symm⟩

theorem sound_putFails
    (sound : client.Sound config history id)
    (request : Request Id) (failure : Failure) :
    (putFails client request failure).Sound config history id := by
  unfold putFails
  split
  · exact sound.rest (Or.inl rfl) (by rintro _ _ ⟨⟩)
  · exact sound.rest (Or.inr rfl) (by rintro _ _ ⟨⟩)
  · exact sound.rest (Or.inr rfl) (by rintro _ _ ⟨⟩)
  · exact sound.rest (Or.inl rfl) (by rintro _ _ ⟨⟩)
  · exact sound.rest (Or.inl rfl) (by rintro _ _ ⟨⟩)
  · exact sound.rest (Or.inl rfl) (by rintro _ _ ⟨⟩)

theorem sound_putSucceeds
    (sound : client.Sound config history id)
    (wrote : Wrote config history id request.term version) :
    (putSucceeds client request version).Sound config history id := by
  unfold putSucceeds
  split
  · exact sound.rest (Or.inl rfl) (by rintro _ _ ⟨⟩)
  · refine ⟨?_, ?_⟩
    · rintro held ⟨⟩
      exact wrote
    · rintro other progress ⟨⟩

theorem sound_namingGot
    (sound : client.Sound config history id)
    (lost : Option UInt64) (holder : String × Int) :
    (namingGot client lost holder).Sound config history id :=
  sound.rest (Or.inl rfl) (by rintro _ _ ⟨⟩)

section

variable
  [DecidableEq Id] {state next : State Id} {now : Int} {index version : Nat}
  (sound : Sound config state)

include sound

attribute [local simp] step

theorem sound_of_acquire
    (stepped : step config state (.acquire id now) = some next) :
    Sound config next := by
  simp only [step] at stepped
  split at stepped
  · cases stepped
    exact sound.set ((sound.clients id).rest (Or.inl rfl) (by rintro _ _ ⟨⟩))
  · cases stepped

theorem sound_of_renew
    (stepped : step config state (.renew id now) = some next) :
    Sound config next := by
  simp only [step] at stepped
  split at stepped
  · rename_i isPhase isHeld
    cases stepped
    refine sound.set ((sound.clients id).rest (Or.inl rfl) ?_)
    simp [isPhase]
  · rename_i held isPhase isHeld
    cases stepped
    refine sound.set ((sound.clients id).send (Or.inl rfl) rfl rfl ?_)
    exact sound_of_wrote ((sound.clients id).held held isHeld)
      (by rintro _ ⟨⟩) rfl rfl
  · cases stepped

theorem sound_of_release
    (stepped : step config state (.release id now) = some next) :
    Sound config next := by
  simp only [step] at stepped
  split at stepped
  · rename_i isPhase isHeld
    cases stepped
    refine sound.set ((sound.clients id).rest (Or.inl rfl) ?_)
    simp [isPhase]
  · rename_i held isPhase isHeld
    cases stepped
    refine sound.set ((sound.clients id).send (Or.inr rfl) rfl rfl ?_)
    exact sound_of_wrote ((sound.clients id).held held isHeld)
      (by rintro _ ⟨⟩) rfl rfl
  · cases stepped

theorem sound_of_got
    {failure : Option String}
    (stepped : step config state (.got id failure) = some next) :
    Sound config next := by
  simp only [step] at stepped
  split at stepped
  · cases stepped
    exact sound.set (sound_acquireGot sound.store (sound.clients id) _)
  · cases stepped
    exact sound.set ((sound.clients id).rest (Or.inl rfl) (by rintro _ _ ⟨⟩))
  · cases stepped
    exact sound.set (sound_namingGot (sound.clients id) _ _)
  · cases stepped

theorem sound_of_lands
    (stepped : step config state (.lands id version) = some next) :
    Sound config next := by
  simp only [step] at stepped
  split at stepped
  · rename_i request isPhase
    obtain ⟨isClient, isSound, -⟩ :=
      (sound.clients id).putting request .flying isPhase
    split at stepped
    · rename_i accepted
      split at stepped
      · rename_i assigned
        cases stepped
        have after := sound.put isSound accepted assigned
        refine after.set ⟨(after.clients id).held, ?_⟩
        rintro _ _ ⟨⟩
        refine ⟨isClient, isSound.mono _, ?_⟩
        rintro _ ⟨⟩
        refine ⟨isClient ▸ isSound.holder, ?_⟩
        refine ⟨⟨version, encode request.term, request.client⟩,
          mem_append_right _ (mem_singleton_self _), rfl, isClient, rfl⟩
      · cases stepped
    · cases stepped
      refine sound.set ⟨(sound.clients id).held, ?_⟩
      rintro _ _ ⟨⟩
      refine ⟨isClient, isSound, ?_⟩
      rintro _ ⟨⟩
  · cases stepped

theorem sound_of_answered
    {failure : Option Failure}
    (stepped : step config state (.answered id failure) = some next) :
    Sound config next := by
  simp only [step] at stepped
  split at stepped
  · rename_i request version isPhase
    cases stepped
    obtain ⟨-, -, landed⟩ :=
      (sound.clients id).putting request (.landed version) isPhase
    exact sound.set (sound_putSucceeds (sound.clients id) (landed version rfl))
  · cases stepped
  · rename_i request failure isPhase
    cases stepped
    obtain ⟨-, isSound, -⟩ := (sound.clients id).putting request .flying isPhase
    have after := sound.set (sound_putFails (sound.clients id) request failure)
    refine ⟨after.store, after.clients, ?_⟩
    intro other member
    rcases mem_append.mp member with older | isNew
    · exact sound.strays other older
    · rw [mem_singleton.mp isNew]
      exact isSound
  · cases stepped
    exact sound.set (sound_putFails (sound.clients id) _ _)
  · cases stepped

theorem sound_of_strayLands
    (stepped : step config state (.strayLands index version) = some next) :
    Sound config next := by
  simp only [step] at stepped
  split at stepped
  · cases stepped
  · rename_i request found
    have isSound := sound.strays request (mem_of_getElem? found)
    have left : Sound config
        { state with strays := state.strays.eraseIdx index } := by
      refine ⟨sound.store, sound.clients, ?_⟩
      intro other member
      exact sound.strays other (mem_of_mem_eraseIdx member)
    split at stepped
    · rename_i accepted
      split at stepped
      · rename_i assigned
        cases stepped
        exact left.put isSound accepted assigned
      · cases stepped
    · cases stepped
      exact left

/-- Every step keeps the invariant. -/
theorem sound_of_step
    {event : Event Id}
    (stepped : step config state event = some next) :
    Sound config next := by
  cases event with
  | acquire id now => exact sound_of_acquire sound stepped
  | renew id now => exact sound_of_renew sound stepped
  | release id now => exact sound_of_release sound stepped
  | got id failure => exact sound_of_got sound stepped
  | lands id version => exact sound_of_lands sound stepped
  | answered id failure => exact sound_of_answered sound stepped
  | strayLands index version => exact sound_of_strayLands sound stepped

end

/-- A state that keeps the invariant keeps the promises. -/
theorem promises_of_sound
    (distinct : ∀ first second,
      (config first).holder = (config second).holder → first = second)
    (sound : Sound config state) :
    Promises state := by
  refine ⟨sound.store.raised, ?_, ?_⟩
  · intro stored first second firstHeld secondHeld isObject isFirst isSecond
      firstVersion secondVersion
    obtain ⟨-, one, oneMember, oneVersion, rfl, -⟩ :=
      (sound.clients first).held firstHeld isFirst
    obtain ⟨-, two, twoMember, twoVersion, rfl, -⟩ :=
      (sound.clients second).held secondHeld isSecond
    refine author_eq_of_text_eq distinct sound.store oneMember twoMember ?_
    refine sound.store.functional one oneMember two twoMember ?_
    rw [oneVersion, twoVersion, firstVersion, secondVersion]
  · intro request stored pending accepted isObject different
    have isSound : request.Sound config state.history := by
      rcases pending with ⟨id, isPhase⟩ | isStray
      · exact ((sound.clients id).putting request .flying isPhase).2.1
      · exact sound.strays request isStray
    obtain ⟨base, isBase, sameText, follows⟩ :=
      follows_of_accepts sound.store isSound accepted isObject
    have isStored := sound.store.current stored isObject
    have sameAuthor : base.author = stored.author :=
      author_eq_of_text_eq distinct sound.store isBase isStored sameText
    unfold Request.Follows at follows
    split at follows
    · rename_i now isPurpose
      refine ⟨now, isPurpose, ?_⟩
      intro term decoded
      obtain ⟨current, wasDecoded, -, mine | expired⟩ := follows
      · -- The term would be the acquirer's own.
        obtain ⟨written, isText, isHolder⟩ := sound.store.written stored isStored
        rw [sameText, isText] at wasDecoded
        have named := (eq_of_decode_encode (plain_of_holder isHolder) wasDecoded).2
        rw [isHolder, mine] at named
        exact absurd (distinct _ _ named).symm different
      · rw [sameText, decoded] at wasDecoded
        cases wasDecoded
        exact expired
    · exact absurd (sameAuthor.symm.trans follows.1) different

/--
Clients with distinct identities keep the promises of the lease, whatever the
order of their requests and whatever their clocks say.
-/
theorem keepsPromises_of_distinct
    [DecidableEq Id]
    (distinct : ∀ first second,
      (config first).holder = (config second).holder → first = second) :
    KeepsPromises config := by
  intro events state run
  have soundNew : Sound config (.new : State Id) := by
    refine ⟨⟨?_, ?_, ?_, .nil, fun _ => rfl, ?_⟩, ?_, ?_⟩
    · rintro stored ⟨⟩
    · rintro stored ⟨⟩
    · rintro stored ⟨⟩
    · rintro stored term ⟨⟩
    · intro id
      refine ⟨?_, ?_⟩
      · rintro held ⟨⟩
      · rintro request progress ⟨⟩
    · rintro request ⟨⟩
  have sound : Sound config state := by
    refine run.invariant (Sound config) ?_ soundNew
    intro before event after stepped sound
    exact sound_of_step sound stepped
  exact promises_of_sound distinct sound

end Invariant

/-! ## The largest generation -/

/-- Clients told apart by their identifiers. -/
def twoNodes (first : Bool) : Config where
  label := "node"
  uuid := if first then 1 else 2
  termLength := 0

/-- Two clients keep the promises of the lease. -/
theorem keepsPromises_twoNodes : KeepsPromises twoNodes := by
  refine keepsPromises_of_distinct ?_
  intro first second same
  cases first <;> cases second
  · rfl
  · exact absurd same (by decide)
  · exact absurd same (by decide)
  · rfl

/-- One client. -/
def oneNode (_ : Unit) : Config where
  label := "node"
  uuid := 1
  termLength := 0

/-- The generations of a client that acquires again and again. -/
def generationAfter : Nat → UInt64
  | 0 => 1
  | count + 1 => nextGeneration (generationAfter count)

theorem toNat_generationAfter
    (count : Nat) :
    (generationAfter count).toNat = min (count + 1) (UInt64.size - 1) := by
  induction count with
  | zero => rfl
  | succ count ih =>
      rw [generationAfter, nextGeneration]
      have size : UInt64.size = 18446744073709551616 := rfl
      split
      · rename_i small
        have sum : (generationAfter count + 1).toNat =
            (generationAfter count).toNat + 1 := by
          rw [UInt64.toNat_add]
          exact Nat.mod_eq_of_lt small
        omega
      · omega

/-- The term of a client that acquires again and again. -/
def termAfter (count : Nat) : Term where
  generation := generationAfter count
  holder := (oneNode ()).holder
  expiresAt := 0

/-- What the client that acquires again and again finds in the store. -/
structure AcquiredTimes (count : Nat) (state : State Unit) : Prop where
  idle : (state.clients ()).phase = .idle
  object : ∃ stored, state.object = some stored ∧ stored.text = encode (termAfter count)
  versions : ∀ stored ∈ state.history, stored.version ≤ count
  acquisitions : state.acquisitions = (List.range (count + 1)).map generationAfter

/-- One acquisition by the client that wrote the last term. -/
def acquiresOnce (version : Nat) : List (Event Unit) :=
  [.acquire () 0, .got () none, .lands () version, .answered () none]

/-- A client can acquire once more. -/
theorem acquiredTimes_succ
    {count : Nat} {state : State Unit} (acquired : AcquiredTimes count state) :
    ∃ next, LabelledRun (step oneNode) state (acquiresOnce (count + 1)) next ∧
      AcquiredTimes (count + 1) next := by
  obtain ⟨stored, isObject, isText⟩ := acquired.object
  have plain : Plain (termAfter count).holder.toList := plain_holder _
  have isZero : expiresMs (termAfter count) = 0 := by
    simp [expiresMs, termAfter]
  have decoded : decode stored.text = .ok (termAfter count) := by
    rw [isText, decode_encode plain (by rw [isZero]; decide), isZero]
    simp [termAfter]
  let request : Request Unit :=
    ⟨(), .acquire 0, termAfter (count + 1), .update stored.version⟩
  have assigned : Assigns state.history (count + 1) (encode request.term) := by
    intro older member isVersion
    have within := acquired.versions older member
    omega
  have acquires : step oneNode state (.acquire () 0) =
      some (state.set () { state.clients () with phase := .reading 0 }) := by
    simp only [step, acquired.idle]
  have gets : ∀ before : State Unit, before.object = some stored →
      (before.clients ()).phase = .reading 0 → step oneNode before (.got () none) =
          some (before.set () { before.clients () with
            phase := .putting request .flying }) := by
    intro before isBefore isPhase
    simp only [step, isPhase, isBefore, acquireGot, decoded]
    rfl
  have lands : ∀ before : State Unit, before.object = some stored →
      before.history = state.history →
        (before.clients ()).phase = .putting request .flying →
          step oneNode before (.lands () (count + 1)) =
            some ((before.put request (count + 1)).set ()
              { before.clients () with
                phase := .putting request (.landed (count + 1)) }) := by
    intro before isBefore sameHistory isPhase
    have accepted : accepts before.object request.mode = true := by
      simp [accepts, request, isBefore]
    rw [← sameHistory] at assigned
    simp only [step, isPhase, accepted, if_true, if_pos assigned]
  have answers : ∀ before : State Unit,
      (before.clients ()).phase = .putting request (.landed (count + 1)) →
        step oneNode before (.answered () none) = some (before.set ()
            (putSucceeds (before.clients ()) request (count + 1))) := by
    intro before isPhase
    simp only [step, isPhase]
  refine ⟨_, .cons acquires (.cons (gets _ isObject rfl)
    (.cons (lands _ isObject rfl rfl) (.cons (answers _ rfl) (.nil _)))), ?_⟩
  refine ⟨rfl, ⟨_, rfl, rfl⟩, ?_, ?_⟩
  · intro older member
    rcases mem_append.mp member with isOld | isNew
    · exact Nat.le_succ_of_le (acquired.versions older isOld)
    · rw [mem_singleton.mp isNew]
  · rw [range_succ, map_append, ← acquired.acquisitions]
    rfl

theorem exists_acquiredTimes
    (count : Nat) :
    ∃ events state, LabelledRun (step oneNode) .new events state ∧
      AcquiredTimes count state := by
  induction count with
  | zero =>
      refine ⟨acquiresOnce 0, _,
        .cons rfl (.cons rfl (.cons rfl (.cons rfl (.nil _)))), ?_⟩
      refine ⟨rfl, ⟨_, rfl, rfl⟩, ?_, rfl⟩
      intro stored member
      rw [mem_singleton.mp member]
  | succ count ih =>
      obtain ⟨events, state, run, acquired⟩ := ih
      obtain ⟨next, once, again⟩ := acquiredTimes_succ acquired
      exact ⟨events ++ acquiresOnce (count + 1), next, run.append once, again⟩

/-- After the largest generation, the next acquisition repeats it. -/
theorem not_raised_largest :
    ¬∀ (Id : Type) (_ : DecidableEq Id) (config : Id → Config), (∀ first second,
        (config first).holder = (config second).holder → first = second) →
        ∀ (events : List (Event Id)) (state : State Id),
          LabelledRun (step config) .new events state →
            state.acquisitions.Pairwise (· < ·) := by
  intro always
  have distinct : ∀ first second : Unit,
      (oneNode first).holder = (oneNode second).holder → first = second :=
    fun _ _ _ => rfl
  -- Where the generations of enough acquisitions have come to a stop.
  have stops : ∀ count, UInt64.size ≤ count → False := by
    intro count enough
    obtain ⟨events, state, run, acquired⟩ := exists_acquiredTimes count
    have raised := always Unit inferInstance oneNode distinct events state run
    rw [acquired.acquisitions, pairwise_map] at raised
    have inRange : UInt64.size - 1 < (range (count + 1)).length ∧
        UInt64.size < (range (count + 1)).length := by
      rw [length_range]
      omega
    have above := pairwise_iff_getElem.mp raised (UInt64.size - 1)
      UInt64.size inRange.1 inRange.2 (by decide)
    rw [getElem_range, getElem_range, UInt64.lt_iff_toNat_lt,
      toNat_generationAfter, toNat_generationAfter] at above
    omega
  exact stops UInt64.size (Nat.le_refl _)

end ObjectLease

end SlateOrm
