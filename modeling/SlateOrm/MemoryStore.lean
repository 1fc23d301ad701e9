import SlateOrm.KeyRange
import SlateOrm.OverlayMap

namespace SlateOrm

/-!
# The in-memory store

One critical section of the store's lock is one step here.  A transaction
shares the committed map as its snapshot, buffers its own writes, and hands
them over when it commits.  Committing and dropping the transaction are two
critical sections, so other transactions may run between them; the history of
commits is trimmed in the second.
-/

/-- A committed state of a key-value store. -/
abbrev Kv := Overlay.Map Bytes Bytes

/-- The buffered writes of a transaction. -/
abbrev Pending := Overlay.Writes Bytes Bytes

namespace MemoryStore

/-- What all transactions of one store share. -/
structure Shared where
  committed : Kv
  version : Nat
  /-- Keys written by each commit, newest last. -/
  history : List (Nat × List Bytes)
  /-- How many running transactions started at a version. -/
  active : Overlay.Map Nat Nat

namespace Shared

/-- An empty store. -/
def new : Shared where
  committed := ∅
  version := 0
  history := []
  active := ∅

/-- Count a transaction that starts at a version. -/
def register (shared : Shared) (version : Nat) : Shared :=
  { shared with
    active := shared.active.insert version ((shared.active[version]?).getD 0 + 1) }

/-- Forget the commits that no running transaction can still conflict with. -/
def trimHistory (shared : Shared) : Shared :=
  let watermark := shared.active.keys.head?.getD shared.version
  { shared with
    history := shared.history.filter (fun record => watermark < record.1) }

/-- Stop counting a transaction that started at a version. -/
def release (shared : Shared) (version : Nat) : Shared :=
  match shared.active[version]? with
  | none => shared
  | some count =>
      if count - 1 = 0 then
        { shared with active := shared.active.erase version }
      else
        { shared with active := shared.active.insert version (count - 1) }

/-- Stop counting a transaction, and trim what it alone could need. -/
def unregister (shared : Shared) (version : Nat) : Shared :=
  (shared.release version).trimHistory

end Shared

/-- A transaction over the store. -/
structure Transaction where
  /-- Released by a commit, and only there. -/
  snapshot : Option Kv
  startedAt : Nat
  pending : Pending

namespace Transaction

section

variable
  (transaction : Transaction)

/-- The committed state a transaction reads. -/
def base : Kv := transaction.snapshot.getD ∅

/-- Read one key: the transaction's own writes first. -/
def get (key : Bytes) : Option Bytes :=
  match transaction.pending[key]? with
  | some written => written
  | none => transaction.base[key]?

/-- The entries of a range, with the transaction's own writes applied. -/
def visibleRange (range : KeyRange) : List KeyValue :=
  if range.isEmpty then
    []
  else
    let written := Overlay.within range.contains transaction.pending
    let view := Overlay.within range.contains transaction.base
    if written.isEmpty then
      view.toList.map (fun entry => ⟨entry.1, entry.2⟩)
    else
      (Overlay.apply view written).toList.map (fun entry => ⟨entry.1, entry.2⟩)

/-- Read a range in an order. -/
def scan (range : KeyRange) (order : ScanOrder) : List KeyValue :=
  match order with
  | .ascending => transaction.visibleRange range
  | .descending => (transaction.visibleRange range).reverse

/-- Buffer the binding of a key. -/
def put (key value : Bytes) : Transaction :=
  { transaction with
    pending := transaction.pending.insert key (some value) }

/-- Buffer the removal of a key. -/
def delete (key : Bytes) : Transaction :=
  { transaction with
    pending := transaction.pending.insert key none }

/-- Whether a commit since the transaction's start wrote one of its keys. -/
def conflicts (shared : Shared) : Bool :=
  (shared.history.filter (fun record => transaction.startedAt < record.1)).any
    (fun record => transaction.pending.keys.any (fun key => record.2.contains key))

end

end Transaction

/-- What a commit answers. -/
inductive CommitResult where
  | committed (version : Option Nat)
  | transactionConflict
  deriving DecidableEq, Repr

/-- Commit a transaction's writes, or refuse them. -/
def commit (shared : Shared) (transaction : Transaction) : Shared × CommitResult :=
  if transaction.pending.isEmpty then
    (shared, .committed none)
  else if transaction.conflicts shared then
    (shared, .transactionConflict)
  else
    let version := shared.version + 1
    ({ shared with
        version := version
        committed := Overlay.apply shared.committed transaction.pending
        history := shared.history ++ [(version, transaction.pending.keys)] },
      .committed (some version))

/-! ## Interleaved transactions -/

/-- A transaction under its handle.  After a commit or rollback it only waits
to be dropped. -/
structure Session where
  id : Nat
  live : Bool
  transaction : Transaction

/-- A store and the transactions not yet dropped. -/
structure State where
  shared : Shared
  sessions : List Session

namespace State

/-- An empty store without transactions. -/
def new : State where
  shared := Shared.new
  sessions := []

/-- The transaction under a handle, while it can still be used. -/
def live? (state : State) (id : Nat) : Option Session :=
  state.sessions.find? (fun session => session.id = id ∧ session.live)

/-- Replace the transaction under a handle. -/
def replace (state : State) (session : Session) : State :=
  { state with
    sessions := state.sessions.map
        (fun other => if other.id = session.id then session else other) }

end State

/-- One call on the store or on one of its transactions. -/
inductive Action where
  | begin (id : Nat)
  | get (id : Nat) (key : Bytes)
  | scan (id : Nat) (range : KeyRange) (order : ScanOrder)
  | put (id : Nat) (key value : Bytes)
  | delete (id : Nat) (key : Bytes)
  | commit (id : Nat)
  | rollback (id : Nat)
  | drop (id : Nat)
  deriving DecidableEq, Repr

/-- What a call answers. -/
inductive Response where
  | done
  | value (found : Option Bytes)
  | items (found : List KeyValue)
  | commit (result : CommitResult)
  deriving DecidableEq, Repr

/--
Carry out one call.  A call on a handle that names no usable transaction
cannot be made.
-/
def step (state : State) : Action → Option (State × Response)
  | .begin id =>
      if state.sessions.any (fun session => session.id = id) then
        none
      else
        let shared := state.shared.register state.shared.version
        let transaction : Transaction := {
          snapshot := some state.shared.committed
          startedAt := state.shared.version
          pending := ∅ }
        some ({
            shared := shared
            sessions := ⟨id, true, transaction⟩ :: state.sessions },
          .done)
  | .get id key => do
      let session ← state.live? id
      return (state, .value (session.transaction.get key))
  | .scan id range order => do
      let session ← state.live? id
      return (state, .items (session.transaction.scan range order))
  | .put id key value => do
      let session ← state.live? id
      return (state.replace
        { session with transaction := session.transaction.put key value },
        .done)
  | .delete id key => do
      let session ← state.live? id
      return (state.replace
        { session with transaction := session.transaction.delete key },
        .done)
  | .commit id => do
      let session ← state.live? id
      let (shared, result) := MemoryStore.commit state.shared session.transaction
      let transaction := { session.transaction with snapshot := none, pending := ∅ }
      let finished := { session with live := false, transaction := transaction }
      return ({ state.replace finished with shared := shared },
        .commit result)
  | .rollback id => do
      let session ← state.live? id
      let transaction := { session.transaction with pending := ∅ }
      let finished := { session with live := false, transaction := transaction }
      return (state.replace finished, .done)
  | .drop id => do
      let session ← state.sessions.find? (fun session => session.id = id)
      return ({
          shared := state.shared.unregister session.transaction.startedAt
          sessions := state.sessions.filter (fun other => other.id ≠ id) },
        .done)

end MemoryStore

end SlateOrm
