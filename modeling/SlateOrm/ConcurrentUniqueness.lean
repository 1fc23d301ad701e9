import SlateOrm.ConsistentRuns

namespace SlateOrm

open RecordTransaction Option Overlay RecordState

/-!
# Uniqueness under concurrency

Record transactions check unique slots against their own snapshots.  A slot
without a null is one key whichever row takes it, so two transactions that take
it write the same key, and the store lets only one of them commit.  Hence
committing the writes of transactions whose operations all succeeded keeps
exactly the rows and entries of a catalog.
-/

namespace RecordClients

variable [Platform]

/-! ## Transactions that commit only when everything succeeded -/

/-- A step of clients that work through record transactions. -/
inductive Event where
  | begin (id : Nat)
  | write (id : Nat) (records : RecordTransaction)
      (context : SecurityContext) (table : TableDef) (write : RecordWrite)
  | commit (id : Nat)
  | rollback (id : Nat)
  | drop (id : Nat)

/-- The step of the store that an event is. -/
def Event.toRecordEvent : Event → RecordMachine.Event
  | .begin id => .store (.begin id)
  | .write id records context table asked => .write id records context table asked
  | .commit id => .store (.commit id)
  | .rollback id => .store (.rollback id)
  | .drop id => .store (.drop id)

/-- A store, and the transactions with an operation that failed. -/
structure State where
  store : MemoryStore.State
  failed : List Nat

/-- An empty store without transactions. -/
def State.new : State where
  store := .new
  failed := []

/-- The transactions with a failed operation after a step. -/
def failedAfter (state : State) : Event → List Nat
  | .begin id => state.failed.filter (fun other => other ≠ id)
  | .write id records context table asked =>
      match state.store.live? id with
      | none => state.failed
      | some session =>
          match (RecordMachine.runWrite session.transaction records context
              table asked).1 with
          | .ok _ => state.failed
          | .error _ => id :: state.failed
  | _ => state.failed

/-- A transaction is committed only if none of its operations failed. -/
def permitted (state : State) : Event → Bool
  | .commit id => id ∉ state.failed
  | _ => true

/-- Take one step. -/
def step (state : State) (event : Event) : Option State :=
  if permitted state event then do
    let store ← RecordMachine.step state.store event.toRecordEvent
    return ⟨store, failedAfter state event⟩
  else
    none

/-- A write of named rows of a catalog's tables, or another step. -/
def Event.Names (catalog : Catalog) : Event → Prop
  | .write _ records _ table asked =>
      records.catalog = catalog ∧ table ∈ catalog.tables ∧ asked.Named
  | _ => True

/-- The rows that an event is given to be stored. -/
def Event.rows : Event → List Row
  | .write _ _ _ _ asked => asked.rows
  | _ => []

/-! ## What every step keeps -/

variable
  {catalog : Catalog}
  {wellFormed : catalog.WellFormed}

/-- A transaction began with, and has left, a catalog's rows and entries. -/
structure Sound (wellFormed : catalog.WellFormed)
    (transaction : MemoryStore.Transaction) : Prop where
  began : Catalog.KeepsOnly wellFormed (.begin transaction.base)
  view : Catalog.KeepsOnly wellFormed ⟨transaction, 0⟩

/-- What is committed and what sound transactions see is consistent. -/
structure Invariant (wellFormed : catalog.WellFormed) (state : State) :
    Prop where
  reached : ∃ trace, MemoryStore.Run trace state.store
  committed : Catalog.KeepsOnly wellFormed (.begin state.store.shared.committed)
  sessions : ∀ session ∈ state.store.sessions,
    session.live → session.id ∉ state.failed → Sound wellFormed session.transaction

section

variable
  {committed : Kv}
  {transaction : MemoryStore.Transaction}
  (before : Catalog.KeepsOnly wellFormed (.begin committed))

include before

/-- Committing a sound transaction keeps what is committed consistent. -/
theorem keepsOnly_committed
    (sound : Sound wellFormed transaction)
    (agrees : ∀ key ∈ transaction.pending, committed[key]? = transaction.base[key]?) :
    Catalog.KeepsOnly wellFormed (.begin (apply committed transaction.pending)) := by
  have fromView : ∀ key, key ∈ transaction.pending → (begin (apply committed
        transaction.pending)).transaction.get key =
        transaction.get key := by
    intro key written
    obtain ⟨value, isValue⟩ := Std.ExtTreeMap.mem_iff_isSome_getElem?.mp written
      |> isSome_iff_exists.mp
    rw [get_begin, getElem?_apply, MemoryStore.Transaction.get, isValue]
    rfl
  have fromStore : ∀ key, key ∉ transaction.pending → (begin (apply committed
        transaction.pending)).transaction.get key =
        (begin committed).transaction.get key := by
    intro key unwritten
    rw [get_begin, get_begin, getElem?_apply, Std.ExtTreeMap.getElem?_eq_none unwritten]
    rfl
  have untouched : ∀ key, key ∉ transaction.pending → transaction.get key =
        (begin transaction.base).transaction.get key := by
    intro key unwritten
    rw [get_begin, MemoryStore.Transaction.get,
      Std.ExtTreeMap.getElem?_eq_none unwritten]
  have agreesOn : ∀ key, key ∈ transaction.pending →
      (begin committed).transaction.get key =
        (begin transaction.base).transaction.get key := by
    intro key written
    rw [get_begin, get_begin]
    exact agrees key written
  refine .of_consistent ?_ ?_
  · exact Layout.Consistent.merge before.consistent sound.began.consistent
      sound.view.consistent untouched agreesOn fromView fromStore
  · intro key notOwned
    by_cases written : key ∈ transaction.pending
    · rw [fromView key written]
      exact sound.view.only key notOwned
    · rw [fromStore key written]
      exact before.only key notOwned

theorem sound_of_begin
    (began : transaction.snapshot = some committed)
    (unwritten : transaction.pending = ∅) :
    Sound wellFormed transaction := by
  have isBase : transaction.base = committed := by
    rw [MemoryStore.Transaction.base, began]
    rfl
  refine ⟨isBase ▸ before, before.congr (fun key => ?_)⟩
  rw [get_begin, MemoryStore.Transaction.get, unwritten, isBase,
    Std.ExtTreeMap.getElem?_empty]

end

/-- A write that succeeds leaves its transaction sound. -/
theorem sound_of_write
    (unmanaged : catalog.Unmanaged) {records : RecordTransaction}
    (isCatalog : records.catalog = catalog)
    {context : SecurityContext} {table : TableDef}
    (inCatalog : table ∈ catalog.tables)
    {asked : RecordWrite} (named : asked.Named)
    (fits : ∀ row ∈ asked.rows, row.Fits)
    {transaction : MemoryStore.Transaction}
    (sound : Sound wellFormed transaction)
    (succeeded : (RecordMachine.runWrite transaction records context table
      asked).1 = .ok ()) :
    Sound wellFormed (RecordMachine.runWrite transaction records context
      table asked).2.transaction := by
  subst isCatalog
  have ran : (asked.operation records context table).run ⟨transaction, 0⟩ =
      (.ok (), (RecordMachine.runWrite transaction records context table asked).2) :=
    Prod.ext succeeded rfl
  obtain ⟨changes, buffered⟩ :=
    (asked.buffers records context table).changes ⟨transaction, 0⟩
  rw [ran] at buffered
  have sameBase : (RecordMachine.runWrite transaction records context table
      asked).2.transaction.base = transaction.base := by
    rw [buffered]
    rfl
  refine ⟨?_, ?_⟩
  · rw [sameBase]
    exact sound.began
  · exact (sound.view.write unmanaged inCatalog named fits ran).congr (fun _ => rfl)

/-- What is committed stays consistent when a sound transaction commits. -/
theorem committed_of_commit
    {state next : MemoryStore.State} {id : Nat}
    (reached : ∃ trace, MemoryStore.Run trace state)
    (before : Catalog.KeepsOnly wellFormed (.begin state.shared.committed))
    (sound : ∀ session, state.live? id = some session →
      Sound wellFormed session.transaction)
    {response : MemoryStore.Response}
    (stepped : MemoryStore.step state (.commit id) = some (next, response)) :
    Catalog.KeepsOnly wellFormed (.begin next.shared.committed) := by
  obtain ⟨trace, traced⟩ := reached
  obtain ⟨session, found, answered⟩ := bind_eq_some_iff.mp stepped
  have isShared : next.shared =
      (MemoryStore.commit state.shared session.transaction).1 := by
    cases answered
    rfl
  have isResponse : response =
      .commit (MemoryStore.commit state.shared session.transaction).2 := by
    cases answered
    rfl
  rw [isShared, MemoryStore.commit]
  split
  · exact before
  · next written =>
      split
      · exact before
      · next free =>
          have isCommit : response =
              .commit (.committed (some (state.shared.version + 1))) := by
            rw [isResponse, MemoryStore.commit, if_neg written, if_neg free]
          rw [isCommit] at stepped
          obtain ⟨again, foundAgain, agrees⟩ :=
            MemoryStore.committed_eq_base_of_commit traced stepped
          rw [found] at foundAgain
          cases foundAgain
          exact keepsOnly_committed before (sound session found) agrees

/-- Every step keeps what is committed, and sound transactions, consistent. -/
theorem invariant_of_step
    (unmanaged : catalog.Unmanaged) {state next : State} {event : Event}
    (names : event.Names catalog)
    (fits : ∀ row ∈ event.rows, row.Fits)
    (before : Invariant wellFormed state)
    (stepped : step state event = some next) :
    Invariant wellFormed next := by
  rw [step] at stepped
  split at stepped
  swap
  · cases stepped
  next isPermitted =>
  obtain ⟨store, taken, isNext⟩ := bind_eq_some_iff.mp stepped
  cases isNext
  obtain ⟨trace, traced⟩ := before.reached
  have reached := RecordMachine.exists_run_of_step traced taken
  cases event with
  | begin id =>
      obtain ⟨⟨_, response⟩, answered, rfl⟩ := map_eq_some_iff.mp taken
      rw [MemoryStore.step] at answered
      split at answered
      · cases answered
      · next isNew =>
          cases answered
          refine ⟨reached, before.committed, ?_⟩
          intro session member live notFailed
          rcases List.mem_cons.mp member with rfl | older
          · exact sound_of_begin before.committed rfl rfl
          · have otherId : session.id ≠ id := by
              intro sameId
              refine isNew (List.any_eq_true.mpr ⟨session, older, ?_⟩)
              exact decide_eq_true sameId
            refine before.sessions session older live (fun failed => ?_)
            exact notFailed (List.mem_filter.mpr ⟨failed, decide_eq_true otherId⟩)
  | write id records context table asked =>
      obtain ⟨isCatalog, inCatalog, named⟩ := names
      obtain ⟨session, found, rfl⟩ := RecordMachine.step_write taken
      obtain ⟨inSessions, rfl, live⟩ := MemoryStore.State.of_live? found
      refine ⟨reached, before.committed, ?_⟩
      intro other member otherLive notFailed
      rw [failedAfter, found] at notFailed
      dsimp only at notFailed
      rcases MemoryStore.State.mem_replace member with
        rfl | ⟨older, otherId⟩
      · cases outcome : (RecordMachine.runWrite session.transaction records
            context table asked).1 with
        | error error =>
            rw [outcome] at notFailed
            exact absurd (List.mem_cons_self ..) notFailed
        | ok _ =>
            rw [outcome] at notFailed
            exact sound_of_write unmanaged isCatalog inCatalog named fits
              (before.sessions session inSessions live notFailed) outcome
      · refine before.sessions other older otherLive (fun failed => ?_)
        cases outcome : (RecordMachine.runWrite session.transaction records
            context table asked).1 with
        | error error =>
            rw [outcome] at notFailed
            exact notFailed (List.mem_cons_of_mem _ failed)
        | ok _ =>
            rw [outcome] at notFailed
            exact notFailed failed
  | commit id =>
      obtain ⟨⟨_, response⟩, answered, rfl⟩ := map_eq_some_iff.mp taken
      have notFailed : id ∉ state.failed := of_decide_eq_true isPermitted
      have sound : ∀ session, state.store.live? id = some session →
          Sound wellFormed session.transaction := by
        intro session found
        obtain ⟨inSessions, rfl, live⟩ := MemoryStore.State.of_live? found
        exact before.sessions session inSessions live notFailed
      refine ⟨reached, committed_of_commit before.reached before.committed
        sound answered, ?_⟩
      obtain ⟨session, found, answered⟩ := bind_eq_some_iff.mp answered
      cases answered
      intro other member otherLive otherSound
      rcases MemoryStore.State.mem_replace member with rfl | ⟨older, _⟩
      · cases otherLive
      · exact before.sessions other older otherLive otherSound
  | rollback id =>
      obtain ⟨⟨_, response⟩, answered, rfl⟩ := map_eq_some_iff.mp taken
      obtain ⟨session, found, answered⟩ := bind_eq_some_iff.mp answered
      cases answered
      refine ⟨reached, before.committed, ?_⟩
      intro other member otherLive otherSound
      rcases MemoryStore.State.mem_replace member with rfl | ⟨older, _⟩
      · cases otherLive
      · exact before.sessions other older otherLive otherSound
  | drop id =>
      obtain ⟨⟨_, response⟩, answered, rfl⟩ := map_eq_some_iff.mp taken
      obtain ⟨session, found, answered⟩ := bind_eq_some_iff.mp answered
      cases answered
      refine ⟨reached, ?_, ?_⟩
      · have sameCommitted : (state.store.shared.unregister
              session.transaction.startedAt).committed =
              state.store.shared.committed := by
          rw [MemoryStore.Shared.unregister, MemoryStore.Shared.release_eq]
          rfl
        dsimp only
        rw [sameCommitted]
        exact before.committed
      · intro other member otherLive otherSound
        exact before.sessions other (List.mem_filter.mp member).1 otherLive otherSound

/-- The committed rows have keys and slots of their own. -/
structure CommittedExact (catalog : Catalog) (committed : Kv) : Prop where
  /-- Rows with equal primary keys are one row. -/
  keys : ∀ table ∈ catalog.tables, ∀ row other, StoredRow (committed[·]?) table row →
    StoredRow (committed[·]?) table other →
    (row.primaryKeyValues table == other.primaryKeyValues table) = true → row.Same other
  indexes : IndexesExact catalog (committed[·]?)

theorem committedExact_of_keepsOnly
    {committed : Kv}
    (keepsOnly : Catalog.KeepsOnly wellFormed (.begin committed)) :
    CommittedExact catalog committed := by
  have isCommitted : (begin committed).transaction.get = (committed[·]?) :=
    funext (get_begin committed)
  have consistent := keepsOnly.consistent
  rw [isCommitted] at consistent
  refine ⟨?_, indexesExact_of_consistent consistent⟩
  intro table inCatalog row other stored stored' samePrimaryKey
  have sameEncoding : encode (row.primaryKeyValues table) =
      encode (other.primaryKeyValues table) :=
    encodeWith_congr ((Value.beq_list_iff_canonical _ _).mp samePrimaryKey)
  have sameKey : (stored.toCatalogRow inCatalog).key =
      (stored'.toCatalogRow inCatalog).key := by
    rw [CatalogRow.key, CatalogRow.key, Keys.rowKey, Keys.rowKey]
    exact congrArg (_ ++ ·) sameEncoding
  have held : (catalog.layout wellFormed).Stored (committed[·]?)
      (stored.toCatalogRow inCatalog) :=
    stored.held
  have held' : (catalog.layout wellFormed).Stored (committed[·]?)
      (stored'.toCatalogRow inCatalog) :=
    stored'.held
  exact CatalogRow.same_of_body wellFormed sameKey (held.body_eq held' sameKey)

/--
However record transactions are interleaved, while every row they write can be
kept in full the committed rows have keys and slots of their own, and the index
space is theirs.
-/
theorem committedExact_of_run
    {tables : List TableDef}
    (built : ∀ table ∈ tables, ∃ builder : TableBuilder, builder.build = .ok table)
    {catalog : Catalog}
    (made : Catalog.fromTables tables = .ok catalog)
    (unmanaged : catalog.Unmanaged) {events : List Event}
    (names : ∀ event ∈ events, event.Names catalog)
    (fits : ∀ event ∈ events, ∀ row ∈ event.rows, row.Fits)
    {state : State} (run : LabelledRun step .new events state) :
    CommittedExact catalog state.store.shared.committed := by
  have wellFormed := Catalog.wellFormed_of_fromTables built made
  have initially : Invariant wellFormed .new := ⟨⟨[], .new⟩, Catalog.KeepsOnly.of_empty,
      fun _ member => absurd member List.not_mem_nil⟩
  have invariant : Invariant wellFormed state := by
    refine run.invariant_of_labels (Invariant wellFormed) ?_ initially
    intro event member before after stepped kept
    exact invariant_of_step unmanaged (names event member)
      (fits event member) kept stepped
  exact committedExact_of_keepsOnly invariant.committed

end RecordClients

/-! ## Two clients and one phone -/

section

open RecordClients

local instance usersPlatform : Platform := asciiPlatform

/-- Two clients give accounts the same phone; the second is refused. -/
def phoneClients : List Event := [.begin 0, .begin 1,
    .write 0 (.plain ⟨[accounts]⟩) .superuser accounts
      (.keyed (.insert ⟨[.i64 1, .i64 10, .i64 20]⟩)),
    .write 1 (.plain ⟨[accounts]⟩) .superuser accounts
      (.keyed (.insert ⟨[.i64 2, .i64 10, .i64 21]⟩)),
    .commit 0,
    .commit 1]

/-- The accounts that are committed have phones and badges of their own. -/
theorem committedExact_phoneClients :
    ∃ state, LabelledRun step .new phoneClients state ∧
      CommittedExact ⟨[accounts]⟩ state.store.shared.committed := by
  have made : Catalog.fromTables [accounts] = .ok ⟨[accounts]⟩ := rfl
  have names : ∀ event ∈ phoneClients, event.Names ⟨[accounts]⟩ := by
    simp [phoneClients, Event.Names, RecordWrite.Named, plain]
  have fits : ∀ event ∈ phoneClients, ∀ row ∈ event.rows, row.Fits := by
    simp [phoneClients, Event.rows, RecordWrite.rows, KeyedWrite.rows,
      Row.Fits, Value.fits]
  have taken : (phoneClients.foldlM step .new).isSome = true := by
    decide
  have run : LabelledRun step .new phoneClients
      ((phoneClients.foldlM step .new).get taken) :=
    .of_foldlM (eq_some_of_isSome _)
  exact ⟨_, run, committedExact_of_run built_accounts made unmanaged_accounts
    names fits run⟩

/-! ## A client with an overlong vector -/

theorem getElem?_committed_of_free
    {shared : MemoryStore.Shared} {transaction : MemoryStore.Transaction}
    (free : transaction.conflicts shared = false)
    (key : Bytes) :
    (MemoryStore.commit shared transaction).1.committed[key]? =
      (transaction.pending[key]?).getD shared.committed[key]? := by
  rw [MemoryStore.commit]
  split
  · next isEmpty =>
      rw [Std.ExtTreeMap.isEmpty_iff.mp isEmpty, Std.ExtTreeMap.getElem?_empty]
      rfl
  · rw [free, if_neg Bool.false_ne_true]
    exact getElem?_apply _ _ _

/-- A client inserts a vector and commits. -/
def vectorClient (raw trimmed : List F32) : List Event := [.begin 0,
    .write 0 (.plain ⟨[vectors]⟩) .superuser vectors
      (.keyed (.insert (vectorsRow raw trimmed))),
    .commit 0]

/-- What the insertion has written is what is committed. -/
theorem run_vectorClient
    (raw trimmed : List F32) :
    ∃ state, LabelledRun step .new (vectorClient raw trimmed) state ∧
      (state.store.shared.committed[·]?) = ((begin ∅).changed (rowChanges vectors
          (vectorsRow raw trimmed) none)).transaction.get := by
  let shared := MemoryStore.Shared.new.register 0
  let began : MemoryStore.Session := ⟨0, true, ⟨some ∅, 0, ∅⟩⟩
  let wrote : MemoryStore.Session := ⟨0, true, ((begin ∅).changed (rowChanges
      vectors (vectorsRow raw trimmed) none)).transaction⟩
  have first : step .new (.begin 0) = some ⟨⟨shared, [began]⟩, []⟩ := rfl
  have isRun : RecordMachine.runWrite began.transaction (.plain ⟨[vectors]⟩)
      .superuser vectors (.keyed (.insert (vectorsRow raw trimmed))) =
      (.ok (), (begin ∅).changed (rowChanges vectors (vectorsRow raw trimmed) none)) :=
    run_insert_vectors raw trimmed
  have live : MemoryStore.State.live? ⟨shared, [began]⟩ 0 = some began := rfl
  have second : step ⟨⟨shared, [began]⟩, []⟩
      (.write 0 (.plain ⟨[vectors]⟩) .superuser vectors
        (.keyed (.insert (vectorsRow raw trimmed)))) =
      some ⟨⟨shared, [wrote]⟩, []⟩ := by
    simp only [step, permitted, Event.toRecordEvent, RecordMachine.step, live,
      failedAfter, isRun, if_true, bind_eq_bind, bind_some]
    rfl
  have third : step ⟨⟨shared, [wrote]⟩, []⟩ (.commit 0) =
      some ⟨⟨(MemoryStore.commit shared wrote.transaction).1,
        [⟨0, false, ⟨none, 0, ∅⟩⟩]⟩, []⟩ := by
    simp only [step, permitted, Event.toRecordEvent]
    rfl
  refine ⟨_, .cons first (.cons second (.cons third (.nil _))), ?_⟩
  funext key
  have free : wrote.transaction.conflicts shared = false := rfl
  have committed := getElem?_committed_of_free free key
  refine committed.trans ?_
  rw [MemoryStore.Transaction.get]
  cases wrote.transaction.pending[key]? with
  | none
  | some written => rfl

end

/--
A client that commits a vector with more elements than a count can describe
leaves an index without the entry of the committed row.
-/
theorem not_committedExact_overlong :
    ¬∀ (_ : Platform) (tables : List TableDef), (∀ table ∈ tables,
        ∃ builder : TableBuilder, builder.build = .ok table) →
      ∀ catalog, Catalog.fromTables tables = .ok catalog → catalog.Unmanaged →
        ∀ events : List RecordClients.Event, (∀ event ∈ events, event.Names catalog) →
          ∀ state, LabelledRun RecordClients.step .new events state →
            RecordClients.CommittedExact catalog
              state.store.shared.committed := by
  intro always
  let _ : Platform := asciiPlatform
  obtain ⟨state, run, isCommitted⟩ := run_vectorClient overlongZeros fullZeros
  have names : ∀ event ∈ vectorClient overlongZeros fullZeros,
      event.Names ⟨[vectors]⟩ := by
    simp only [vectorClient, List.forall_mem_cons, RecordClients.Event.Names]
    exact ⟨trivial, ⟨rfl, List.mem_singleton.mpr rfl, trivial⟩, trivial,
      fun _ member => absurd member List.not_mem_nil⟩
  have committed := always asciiPlatform [vectors] built_vectors
    ⟨[vectors]⟩ rfl unmanaged_vectors _ names state run
  have indexes := committed.indexes
  rw [isCommitted] at indexes
  exact not_indexesExact_cut indexes

end SlateOrm
