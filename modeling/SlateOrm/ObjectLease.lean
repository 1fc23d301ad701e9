import SlateOrm.LeaseTerm

namespace SlateOrm

/-!
# A lease in object storage

A client takes, keeps and gives up the lease with conditional writes of one
object.  Every call is split at its store requests; a request may land before
its answer comes, after the client has given it up, or with an answer that
reports a failure.  Every write is pinned to the version that the decision to
write was made on, and the text under a version never changes: so a write
replaces what its client had in mind, or nothing.
-/

open Lease

namespace ObjectLease

/-! ## The stored object -/

/-- Marks the object and versions the format. -/
def magic : List Char := "slate-lease v1".toList

/-- Nanoseconds in a millisecond. -/
def nanosPerMilli : Nat := 1000000

/-- The whole milliseconds of an expiry; none before the epoch. -/
def expiresMs (term : Term) : Nat := term.expiresAt.toNat / nanosPerMilli

/-- The stored form: a magic line, then one field per line. -/
def encode (term : Term) : List Char :=
  magic ++ "\ngeneration: ".toList ++ Nat.toDigits 10 term.generation.toNat ++
    "\nholder: ".toList ++ term.holder.toList ++
      "\nexpires_ms: ".toList ++ Nat.toDigits 10 (expiresMs term) ++ "\n".toList

/-- The fields of a stored object, as far as they have been read. -/
structure Fields where
  generation : Option Nat := none
  holder : Option String := none
  expiresMs : Option Nat := none

/-- Read one line; a field that does not parse is missing. -/
def decodeLine (fields : Fields) (line : List Char) : Fields :=
  match splitOnce ':' line with
  | none => fields
  | some (field, value) =>
      let value := trimText isWhitespace value
      if field = "generation".toList then
        { fields with generation := parseUnsigned UInt64.size value }
      else if field = "holder".toList then
        { fields with holder := some (String.ofList value) }
      else if field = "expires_ms".toList then
        { fields with expiresMs := parseUnsigned UInt64.size value }
      else
        fields

/-- A text between quotes, with quotes and the control characters of ASCII escaped. -/
def quoted (text : List Char) : String :=
  String.ofList (['"'] ++ text.flatMap (fun char =>
    if char = '"' then ['\\', '"']
    else if char = '\\' then ['\\', '\\']
    else if char = '\n' then ['\\', 'n']
    else if char = '\r' then ['\\', 'r']
    else if char = '\t' then ['\\', 't']
    else if char.toNat = 0 then ['\\', '0']
    else if char.toNat < 0x20 || char.toNat = 0x7f then
      "\\u\x7b".toList ++ Nat.toDigits 16 char.toNat ++ "\x7d".toList
    else [char]) ++ ['"'])

/-- The first line of something that is not a lease. -/
def foundText : Option (List Char) → String
  | none => "None"
  | some line => "Some(" ++ quoted line ++ ")"

/-- The term that a stored object names. -/
def decode (text : List Char) : Except LeaseError Term :=
  let lines := textLines text
  if lines.head? = some magic then
    let fields := lines.tail.foldl decodeLine {}
    match fields.generation, fields.holder, fields.expiresMs with
    | some generation, some holder, some expiresMs =>
        .ok {
          generation := UInt64.ofNat generation
          holder := holder
          expiresAt := (expiresMs * nanosPerMilli : Nat) }
    | _, _, _ => .error (.malformed ("missing or unparsable fields in " ++ quoted text))
  else
    .error (.malformed ("expected `slate-lease v1` on the first line, found " ++
      foundText lines.head?))

/-- Whether a term has not yet run out. -/
def isLiveAt (term : Term) (now : Int) : Bool := now < term.expiresAt

/-! ## Identities -/

/-- What a client was made with. -/
structure Config where
  label : String
  uuid : BitVec 128
  /-- In nanoseconds. -/
  termLength : Nat

/-- The hexadecimal digits of a part of an identifier. -/
def hexDigits (uuid : BitVec 128) (start count : Nat) : List Char :=
  (List.range count).map (fun offset =>
    Nat.digitChar (uuid.toNat / 16 ^ (31 - (start + offset)) % 16))

/-- An identifier with its hyphens. -/
def hyphenated (uuid : BitVec 128) : List Char :=
  hexDigits uuid 0 8 ++ ['-'] ++ hexDigits uuid 8 4 ++ ['-'] ++
    hexDigits uuid 12 4 ++ ['-'] ++ hexDigits uuid 16 4 ++ ['-'] ++ hexDigits uuid 20 12

/-- The identity that a client writes into the lease. -/
def Config.holder (config : Config) : String := String.ofList
    ((config.label.toList.filter (fun char =>
      !isWhitespace char && char != ':')).take 64 ++ ['-'] ++ hyphenated config.uuid)

/-! ## Clients and the store -/

/-- Why a request writes the object. -/
inductive Purpose where
  /-- To take the lease, decided at a time on the client's clock. -/
  | acquire (now : Int)
  | renew
  | release
  deriving DecidableEq, Repr

/-- When the store takes a write. -/
inductive Mode where
  | create
  | update (version : Nat)
  deriving DecidableEq, Repr

/-- A conditional write. -/
structure Request (Id : Type) where
  client : Id
  purpose : Purpose
  term : Term
  mode : Mode
  deriving DecidableEq, Repr

/-- How far a request has come. -/
inductive Progress where
  | flying
  | landed (version : Nat)
  | rejected
  deriving DecidableEq, Repr

/-- What a client holds, and the version that proves it. -/
structure Held where
  term : Term
  version : Nat
  deriving DecidableEq, Repr

/-- The request that a client's call waits for. -/
inductive Phase (Id : Type) where
  | idle
  | reading (now : Int)
  | putting (request : Request Id) (progress : Progress)
  /-- It reads who has the lease, for an error. -/
  | naming (lost : Option UInt64)
  deriving DecidableEq, Repr

/-- What a call returned. -/
inductive Answer where
  | term (result : Except LeaseError Term)
  | released (result : Except LeaseError Unit)

/-- A client, with what its last call returned. -/
structure Client (Id : Type) where
  phase : Phase Id := .idle
  held : Option Held := none
  answer : Option Answer := none

/-- One write that the store has taken. -/
structure Stored (Id : Type) where
  version : Nat
  text : List Char
  author : Id
  deriving DecidableEq, Repr

/-- The store, the clients, and the writes that were given up in flight. -/
structure State (Id : Type) where
  object : Option (Stored Id)
  /-- Every write that the store has taken. -/
  history : List (Stored Id)
  clients : Id → Client Id
  strays : List (Request Id)
  /-- The generations of the acquisitions, in the order they landed. -/
  acquisitions : List UInt64

/-- What the store may answer when it has not done what was asked. -/
inductive Failure where
  | precondition (detail : String)
  | alreadyExists (detail : String)
  | other (detail : String)
  deriving DecidableEq, Repr

/-- The error that came with a failure. -/
def Failure.detail : Failure → String
  | precondition detail => detail
  | alreadyExists detail => detail
  | other detail => detail

/-- What happens between two awaits. -/
inductive Event (Id : Type) where
  | acquire (id : Id) (now : Int)
  | renew (id : Id) (now : Int)
  | release (id : Id) (now : Int)
  /-- A read is answered, or reports a failure. -/
  | got (id : Id) (failure : Option String)
  /-- A write reaches the store, which would give it this version. -/
  | lands (id : Id) (version : Nat)
  /-- A write is answered; it may have landed and report a failure. -/
  | answered (id : Id) (failure : Option Failure)
  /-- A write that was given up reaches the store. -/
  | strayLands (index : Nat) (version : Nat)

section Steps

variable
  {Id : Type}
  [DecidableEq Id]

/-- No lease object, and clients that have not called yet. -/
def State.new : State Id where
  object := none
  history := []
  clients _ := {}
  strays := []
  acquisitions := []

/-- Replace a client. -/
def State.set (state : State Id) (id : Id) (client : Client Id) : State Id :=
  { state with
    clients := fun other => if other = id then client else state.clients other }

/-- Whether the store takes a write. -/
def accepts (object : Option (Stored Id)) : Mode → Bool
  | .create => object.isNone
  | .update version => object.any (fun stored => stored.version = version)

/-- A version that the store may give: texts under one version are the same. -/
def Assigns (history : List (Stored Id)) (version : Nat) (text : List Char) : Prop :=
  ∀ stored ∈ history, stored.version = version → stored.text = text

instance (history : List (Stored Id)) (version : Nat) (text : List Char) :
    Decidable (Assigns history version text) :=
  inferInstanceAs (Decidable (∀ stored ∈ history, _ → _))

/-- The store takes a write under a version. -/
def State.put (state : State Id) (request : Request Id) (version : Nat) : State Id :=
  let stored : Stored Id :=
    { version := version
      text := encode request.term
      author := request.client }
  { state with
    object := some stored
    history := state.history ++ [stored]
    acquisitions :=
      match request.purpose with
      | .acquire _ => state.acquisitions ++ [request.term.generation]
      | _ => state.acquisitions }

/-- The read of an acquire is answered. -/
def acquireGot (config : Config) (id : Id) (client : Client Id) (now : Int)
    (object : Option (Stored Id)) : Client Id :=
  match object with
  | none =>
      let term : Term :=
        { generation := 1
          holder := config.holder
          expiresAt := now + config.termLength }
      { client with
        phase := .putting ⟨id, .acquire now, term, .create⟩ .flying }
  | some stored =>
      match decode stored.text with
      | .error error =>
          { client with phase := .idle, answer := some (.term (.error error)) }
      | .ok current =>
          if current.holder ≠ config.holder ∧ isLiveAt current now then
            { client with
              phase := .idle
              held := none
              answer := some (.term (.error (.held current.holder current.expiresAt))) }
          else
            let term : Term :=
              { generation := nextGeneration current.generation
                holder := config.holder
                expiresAt := now + config.termLength }
            { client with
              phase := .putting ⟨id, .acquire now, term, .update stored.version⟩
                  .flying }

/-- Who has the lease, as far as can be told. -/
def whoeverHoldsIt (object : Option (Stored Id)) (failure : Option String) :
    String × Int :=
  match failure, object.map (fun stored => decode stored.text) with
  | none, some (.ok term) => (term.holder, term.expiresAt)
  | _, _ => ("unknown", 0)

/-- The read for an error is answered. -/
def namingGot (client : Client Id) (lost : Option UInt64)
    (holder : String × Int) : Client Id :=
  let error : LeaseError :=
    match lost with
    | none => .held holder.1 holder.2
    | some generation => .lost holder.1 generation
  { client with phase := .idle, answer := some (.term (.error error)) }

/-- A write has succeeded. -/
def putSucceeds (client : Client Id) (request : Request Id)
    (version : Nat) : Client Id :=
  match request.purpose with
  | .release => { client with phase := .idle, answer := some (.released (.ok ())) }
  | _ =>
      { client with
        phase := .idle
        held := some ⟨request.term, version⟩
        answer := some (.term (.ok request.term)) }

/-- A write has reported a failure. -/
def putFails (client : Client Id) (request : Request Id)
    (failure : Failure) : Client Id :=
  match request.purpose, request.mode, failure with
  | .acquire _, .create, .alreadyExists _ => { client with phase := .naming none }
  | .acquire _, .update _, .precondition _ =>
      { client with phase := .naming none, held := none }
  | .renew, _, .precondition _ =>
      { client with
        phase := .naming (some request.term.generation)
        held := none }
  | .release, _, .precondition _ =>
      { client with phase := .idle, answer := some (.released (.ok ())) }
  | .release, _, failure =>
      { client with
        phase := .idle
        answer := some (.released (.error (.backend failure.detail))) }
  | _, _, failure =>
      { client with
        phase := .idle
        answer := some (.term (.error (.backend failure.detail))) }

/-- Take one step; a client's calls wait for each other. -/
def step (config : Id → Config) (state : State Id) : Event Id → Option (State Id)
  | .acquire id now =>
      let client := state.clients id
      match client.phase with
      | .idle => some (state.set id { client with phase := .reading now })
      | _ => none
  | .renew id now =>
      let client := state.clients id
      match client.phase, client.held with
      | .idle, none =>
          some (state.set id { client with
            answer := some (.term (.error .notHeld)) })
      | .idle, some current =>
          let term : Term :=
            { generation := current.term.generation
              holder := (config id).holder
              expiresAt := now + (config id).termLength }
          some (state.set id { client with
            phase := .putting ⟨id, .renew, term, .update current.version⟩ .flying })
      | _, _ => none
  | .release id now =>
      let client := state.clients id
      match client.phase, client.held with
      | .idle, none =>
          some (state.set id { client with
            answer := some (.released (.error .notHeld)) })
      | .idle, some current =>
          let term : Term :=
            { generation := current.term.generation
              holder := (config id).holder
              expiresAt := now }
          some (state.set id { client with
            phase := .putting ⟨id, .release, term, .update current.version⟩ .flying
            held := none })
      | _, _ => none
  | .got id failure =>
      let client := state.clients id
      match client.phase, failure with
      | .reading now, none =>
          some (state.set id (acquireGot (config id) id client now state.object))
      | .reading _, some detail =>
          some (state.set id { client with
            phase := .idle
            answer := some (.term (.error (.backend detail))) })
      | .naming lost, _ =>
          some (state.set id
            (namingGot client lost (whoeverHoldsIt state.object failure)))
      | _, _ => none
  | .lands id version =>
      let client := state.clients id
      match client.phase with
      | .putting request .flying =>
          if accepts state.object request.mode then
            if Assigns state.history version (encode request.term) then
              some ((state.put request version).set id { client with
                phase := .putting request (.landed version) })
            else
              none
          else
            some (state.set id { client with
              phase := .putting request .rejected })
      | _ => none
  | .answered id failure =>
      let client := state.clients id
      match client.phase, failure with
      | .putting request (.landed version), none =>
          some (state.set id (putSucceeds client request version))
      | .putting _ _, none => none
      | .putting request .flying, some failure =>
          some { state.set id (putFails client request failure) with
            strays := state.strays ++ [request] }
      | .putting request _, some failure =>
          some (state.set id (putFails client request failure))
      | _, _ => none
  | .strayLands index version =>
      match state.strays[index]? with
      | none => none
      | some request =>
          let left := { state with strays := state.strays.eraseIdx index }
          if accepts state.object request.mode then
            if Assigns state.history version (encode request.term) then
              some (left.put request version)
            else
              none
          else
            some left

end Steps

/-! ## Reading a term back -/

/-- A text without white space. -/
def Plain (text : List Char) : Prop := ∀ char ∈ text, isWhitespace char = false

theorem Plain.oneLine
    {text : List Char} (plain : Plain text) :
    OneLine text := by
  intro char member
  refine ⟨?_, ?_⟩
  · rintro rfl
    exact absurd (plain _ member) (by decide)
  · rintro rfl
    exact absurd (plain _ member) (by decide)

theorem plain_holder
    (config : Config) :
    Plain config.holder.toList := by
  have hexPlain : ∀ start count, Plain (hexDigits config.uuid start count) := by
    intro start count char member
    obtain ⟨offset, -, rfl⟩ := List.mem_map.mp member
    have digits : ∀ digit < 16, isWhitespace (Nat.digitChar digit) = false := by
      decide
    exact digits _ (Nat.mod_lt _ (by decide))
  intro char member
  rw [Config.holder, String.toList_ofList] at member
  simp only [hyphenated, List.mem_append, List.mem_singleton] at member
  rcases member with (inLabel | rfl) |
    ((((((((inFirst | rfl) | inSecond) | rfl) | inThird) | rfl) | inFourth) |
      rfl) | inFifth)
  · have kept := (List.mem_filter.mp (List.mem_of_mem_take inLabel)).2
    simp only [Bool.and_eq_true, Bool.not_eq_true'] at kept
    exact kept.1
  · decide
  · exact hexPlain _ _ _ inFirst
  · decide
  · exact hexPlain _ _ _ inSecond
  · decide
  · exact hexPlain _ _ _ inThird
  · decide
  · exact hexPlain _ _ _ inFourth
  · decide
  · exact hexPlain _ _ _ inFifth

theorem textLines_encode
    {term : Term} (oneLine : OneLine term.holder.toList) :
    textLines (encode term) =
      [magic, "generation: ".toList ++ Nat.toDigits 10 term.generation.toNat,
        "holder: ".toList ++ term.holder.toList,
        "expires_ms: ".toList ++ Nat.toDigits 10 (expiresMs term)] := by
  have inLines : encode term = magic ++ '\n' ::
        (("generation: ".toList ++ Nat.toDigits 10 term.generation.toNat) ++
          '\n' :: (("holder: ".toList ++ term.holder.toList) ++
            '\n' :: (("expires_ms: ".toList ++
              Nat.toDigits 10 (expiresMs term)) ++ '\n' :: []))) := by
    simp [encode]
  have magicLine : OneLine magic := oneLine_of_all (by decide)
  have generationLabel : OneLine "generation: ".toList := oneLine_of_all (by decide)
  have holderLabel : OneLine "holder: ".toList := oneLine_of_all (by decide)
  have expiresLabel : OneLine "expires_ms: ".toList := oneLine_of_all (by decide)
  rw [inLines, textLines_append_newline magicLine, textLines_append_newline
    (generationLabel.append (oneLine_toDigits _)), textLines_append_newline
    (holderLabel.append oneLine), textLines_append_newline
    (expiresLabel.append (oneLine_toDigits _)), textLines]

theorem eq_of_encode_eq
    {first second : Term} (plainFirst : Plain first.holder.toList)
    (plainSecond : Plain second.holder.toList)
    (same : encode first = encode second) :
    first.generation = second.generation ∧ first.holder = second.holder := by
  have sameLines := congrArg textLines same
  rw [textLines_encode plainFirst.oneLine,
    textLines_encode plainSecond.oneLine] at sameLines
  simp only [List.cons.injEq, List.append_cancel_left_eq] at sameLines
  obtain ⟨-, sameDigits, sameHolder, -⟩ := sameLines
  refine ⟨?_, String.toList_injective sameHolder⟩
  have sameNumber := congrArg (Nat.ofDigitChars 10 · 0) sameDigits
  simp only [Nat.ofDigitChars_ten_toDigits] at sameNumber
  exact UInt64.toNat_inj.mp sameNumber

/-- The fields of a stored term; the holder is trimmed, and an expiry may be too
large to read back. -/
theorem fields_encode
    {term : Term} (oneLine : OneLine term.holder.toList) :
    (textLines (encode term)).tail.foldl decodeLine {} =
      { generation := some term.generation.toNat
        holder := some (String.ofList (trimText isWhitespace term.holder.toList))
        expiresMs := if expiresMs term < UInt64.size then
            some (expiresMs term)
          else
            none } := by
  have isSpace : isWhitespace ' ' = true := by decide
  have plainDigits : ∀ number, Plain (Nat.toDigits 10 number) := by
    intro number char member
    exact isWhitespace_of_isDigit (isDigit_toDigits member)
  have readsGeneration : decodeLine {}
        ("generation: ".toList ++ Nat.toDigits 10 term.generation.toNat) =
          { generation := some term.generation.toNat } := by
    have free : ':' ∉ "generation".toList := by decide
    have splits : splitOnce ':'
        ("generation: ".toList ++ Nat.toDigits 10 term.generation.toNat) =
          some ("generation".toList, ' ' :: Nat.toDigits 10 term.generation.toNat) :=
      splitOnce_append free _
    simp only [decodeLine, splits, trimText_cons isSpace, parse_toDigits, if_true]
  have readsHolder : ∀ fields,
      decodeLine fields ("holder: ".toList ++ term.holder.toList) =
        { fields with
          holder := some (String.ofList
            (trimText isWhitespace term.holder.toList)) } := by
    intro fields
    have free : ':' ∉ "holder".toList := by decide
    have splits : splitOnce ':' ("holder: ".toList ++ term.holder.toList) =
        some ("holder".toList, ' ' :: term.holder.toList) :=
      splitOnce_append free _
    have notGeneration : "holder".toList ≠ "generation".toList := by decide
    simp only [decodeLine, splits, trimText_cons isSpace, if_neg notGeneration, if_true]
  have readsExpires : ∀ fields, decodeLine fields
        ("expires_ms: ".toList ++ Nat.toDigits 10 (expiresMs term)) =
          { fields with
            expiresMs := if expiresMs term < UInt64.size then
                some (expiresMs term)
              else
                none } := by
    intro fields
    have free : ':' ∉ "expires_ms".toList := by decide
    have splits : splitOnce ':'
        ("expires_ms: ".toList ++ Nat.toDigits 10 (expiresMs term)) =
          some ("expires_ms".toList, ' ' :: Nat.toDigits 10 (expiresMs term)) :=
      splitOnce_append free _
    have notGeneration : "expires_ms".toList ≠ "generation".toList := by
      decide
    have notHolder : "expires_ms".toList ≠ "holder".toList := by decide
    simp only [decodeLine, splits, trimText_cons isSpace,
      trimText_of_plain (plainDigits _), if_neg notGeneration,
      if_neg notHolder, if_true, parseUnsigned_toDigits]
  rw [textLines_encode oneLine]
  simp only [List.tail_cons, List.foldl_cons, List.foldl_nil,
    readsGeneration, readsHolder, readsExpires]

theorem decode_encode_of_oneLine
    {term : Term} (oneLine : OneLine term.holder.toList) :
    decode (encode term) =
      if expiresMs term < UInt64.size then
        .ok { term with
          holder := String.ofList (trimText isWhitespace term.holder.toList)
          expiresAt := (expiresMs term * nanosPerMilli : Nat) }
      else
        .error (.malformed ("missing or unparsable fields in " ++
          quoted (encode term))) := by
  have isMagic : (textLines (encode term)).head? = some magic := by
    rw [textLines_encode oneLine]
    rfl
  by_cases inRange : expiresMs term < UInt64.size <;>
    simp only [decode, isMagic, if_true, fields_encode oneLine, inRange,
      if_false, UInt64.ofNat_toNat]

theorem decode_encode
    {term : Term} (plain : Plain term.holder.toList)
    (inRange : expiresMs term < UInt64.size) :
    decode (encode term) = .ok { term with
        expiresAt := (expiresMs term * nanosPerMilli : Nat) } := by
  rw [decode_encode_of_oneLine plain.oneLine, if_pos inRange,
    trimText_of_plain plain, String.ofList_toList]

theorem eq_of_decode_encode
    {term current : Term} (plain : Plain term.holder.toList)
    (decoded : decode (encode term) = .ok current) :
    current.generation = term.generation ∧ current.holder = term.holder := by
  by_cases inRange : expiresMs term < UInt64.size
  · rw [decode_encode plain inRange] at decoded
    cases decoded
    exact ⟨rfl, rfl⟩
  · rw [decode_encode_of_oneLine plain.oneLine, if_neg inRange] at decoded
    cases decoded

/-! ## Identities that are read back -/

/-- The identity of a client that is made with one: it stays on a line. -/
def withHolder (holder : String) : String :=
  String.ofList (holder.toList.map fun char =>
    if char = '\n' ∨ char = '\r' then '_' else char)

theorem oneLine_withHolder
    (holder : String) :
    OneLine (withHolder holder).toList := by
  intro char member
  rw [withHolder, String.toList_ofList] at member
  obtain ⟨original, _, rfl⟩ := List.mem_map.mp member
  split
  case isTrue => decide
  case isFalse kept => simpa only [not_or] using kept

/-- A stored term is read back as it was written, and no client of another
identity takes it for its own. -/
def IsReadBack (term : Term) : Prop := decode (encode term) = .ok term ∧
  ∀ other stored, withHolder other ≠ term.holder →
    decode (encode term) = .ok stored → stored.holder ≠ withHolder other

/-- A term is read back just when its holder has no white space at either end
and its expiry fits the field it is written to. -/
theorem isReadBack_iff
    (generation : UInt64) (holder : String) (millis : Nat) :
    IsReadBack {
        generation := generation
        holder := withHolder holder
        expiresAt := (millis * nanosPerMilli : Nat) } ↔
      trimText isWhitespace (withHolder holder).toList = (withHolder holder).toList ∧
        millis < UInt64.size := by
  have wholeMillis : ∀ generation holder,
      expiresMs ⟨generation, holder, (millis * nanosPerMilli : Nat)⟩ =
        millis := by
    intro generation holder
    rw [expiresMs, Int.toNat_natCast]
    exact Nat.mul_div_cancel millis (by decide)
  have decoded := @decode_encode_of_oneLine
    ⟨generation, withHolder holder, (millis * nanosPerMilli : Nat)⟩
    (oneLine_withHolder holder)
  rw [wholeMillis] at decoded
  rw [IsReadBack, decoded]
  by_cases inRange : millis < UInt64.size
  · rw [if_pos inRange]
    constructor
    · rintro ⟨same, _⟩
      have sameHolder := congrArg Term.holder (Except.ok.inj same)
      exact ⟨by simpa using congrArg String.toList sameHolder, inRange⟩
    · rintro ⟨trimmed, _⟩
      rw [trimmed, String.ofList_toList]
      refine ⟨rfl, fun other stored different isStored => ?_⟩
      cases isStored
      exact different.symm
  · rw [if_neg inRange]
    refine iff_of_false ?_ fun ⟨_, within⟩ => inRange within
    rintro ⟨same, _⟩
    cases same

/-- A client named with a blank at the end is read as the one without it. -/
theorem not_isReadBack_blank :
    ¬ IsReadBack {
        generation := 7
        holder := withHolder "node-a "
        expiresAt := (1700000000000 * nanosPerMilli : Nat) } := by
  rintro ⟨same, _⟩
  have decoded := @decode_encode_of_oneLine
    ⟨7, withHolder "node-a ", (1700000000000 * nanosPerMilli : Nat)⟩
    (oneLine_withHolder _)
  rw [if_pos (by decide)] at decoded
  have sameHolder := congrArg Term.holder (Except.ok.inj (decoded.symm.trans same))
  exact absurd sameHolder (by decide)

end ObjectLease

end SlateOrm
