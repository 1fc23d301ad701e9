import SlateOrm.RecordWrites

namespace SlateOrm

open RecordTransaction Write RecordState

/-!
# Hidden rows

An access under a primary key looks the row up, asks the filter of its own
action whether the caller is to meet it, and ends there if not.  So a row that
this filter hides is answered for as if it were absent.  The filter of another
action has no say: a caller may update a row that it does not read.
-/

/-- An access to the row under a primary key. -/
inductive KeyedAccess where
  | get (primaryKey : List Value)
  | update (row : Row)
  | updateIfUnchanged (row expected : Row)
  | delete (primaryKey : List Value)
  | deleteIfUnchanged (primaryKey : List Value) (expected : Row)

/-- What an access answers. -/
inductive Answer where
  | found (row : Option Row)
  | removed (existed : Bool)
  | done

namespace KeyedAccess

/-- The primary key that an access names. -/
def primaryKey (table : TableDef) : KeyedAccess → List Value
  | get primaryKey => primaryKey
  | update row => row.primaryKeyValues table
  | updateIfUnchanged row _ => row.primaryKeyValues table
  | delete primaryKey => primaryKey
  | deleteIfUnchanged primaryKey _ => primaryKey

def action : KeyedAccess → Action
  | get _ => .read
  | update _ => .update
  | updateIfUnchanged _ _ => .update
  | delete _ => .delete
  | deleteIfUnchanged _ _ => .delete

/-- Whether an access may meet a retired row. -/
def deleted (records : RecordTransaction) (context : SecurityContext)
    (table : TableDef) : KeyedAccess → Deleted
  | update _ => records.retiredRowsReachable context table
  | _ => .hidden

variable [Platform]

section

variable
  (records : RecordTransaction) (context : SecurityContext) (table : TableDef)

/-- Carry out an access. -/
def operation : KeyedAccess → Write Answer
  | get primaryKey => do
      let row ← Write.reading (fun snapshot =>
        records.reads.get snapshot context table primaryKey)
      return .found row
  | update row => do
      records.update context table row
      return .done
  | updateIfUnchanged row expected => do
      records.updateIfUnchanged context table row expected
      return .done
  | delete primaryKey => do
      let existed ← records.delete context table primaryKey
      return .removed existed
  | deleteIfUnchanged primaryKey expected => do
      records.deleteIfUnchanged context table primaryKey expected
      return .done

/-- The filter of an access leaves a row out. -/
def Hides (access : KeyedAccess) (row : Row) : Prop :=
  records.security.permitsRowWith context table access.action row
    (access.deleted records context table) = .ok false

/-- There is no row under the key of an access, or it is hidden. -/
def Unmet (access : KeyedAccess) (snapshot : Snapshot) : Prop :=
  readRowUnchecked snapshot table (access.primaryKey table) = .ok none ∨ ∃ row,
      readRowUnchecked snapshot table (access.primaryKey table) = .ok (some row) ∧
      access.Hides records context table row

/-- What an access answers when it meets no row. -/
def answerUnmet : KeyedAccess → Except KernelError Answer
  | get _ => do
      records.security.authorize context table .read
      let _ ← records.security.rowFilter context table .read
      return .found none
  | update row => do
      records.security.authorize context table .update
      records.security.requireEveryColumn context table "a whole-row update"
      liftSchema (row.validate table)
      .error (.rowNotFound table.name)
  | updateIfUnchanged row expected => do
      records.security.authorize context table .update
      records.security.requireEveryColumn context table "a compare-and-swap update"
      liftSchema (row.validate table)
      liftSchema (expected.validate table)
      if expected.primaryKeyValues table != row.primaryKeyValues table then
        .error (.rowChanged table.name)
      else
        .error (.rowNotFound table.name)
  | delete _ => do
      records.security.authorize context table .delete
      return .removed false
  | deleteIfUnchanged primaryKey expected => do
      records.security.authorize context table .delete
      records.security.requireEveryColumn context table "a compare-and-swap delete"
      liftSchema (expected.validate table)
      if expected.primaryKeyValues table != primaryKey then
        .error (.rowChanged table.name)
      else
        .error (.rowNotFound table.name)

end

/-! ## Accesses that meet no row -/

section

variable
  {records : RecordTransaction}
  {context : SecurityContext}
  {table : TableDef}

variable {snapshot : Snapshot} {access : KeyedAccess} {primaryKey : List Value}

theorem visibleRowWith_of_unmet
    (unmet : access.Unmet records context table snapshot) :
    records.visibleRowWith context table access.action
        (access.primaryKey table) (access.deleted records context table)
        snapshot =
      .ok none := by
  rw [visibleRowWith]
  rcases unmet with absent | ⟨row, stored, hides⟩
  · rw [absent]
    rfl
  · rw [stored]
    dsimp only [bind, Except.bind]
    rw [hides]
    rfl

theorem get_of_unmet
    (unmet : (get primaryKey).Unmet records context table snapshot) :
    (records.reads.get snapshot context table primaryKey).map Answer.found =
      (get primaryKey).answerUnmet records context table := by
  rw [SecuredReads.get, answerUnmet]
  have isSecurity : records.reads.security = records.security := rfl
  rw [isSecurity]
  cases records.security.authorize context table .read with
  | error error => rfl
  | ok _ =>
      rcases unmet with absent | ⟨row, stored, hides⟩
      · rw [KeyedAccess.primaryKey] at absent
        rw [absent]
        cases records.security.rowFilter context table .read with
        | error error
        | ok filter => rfl
      · obtain ⟨filter, isFilter, rejects⟩ := bind_eq_ok.mp hides
        have rejected : filter.admits row = false := Except.ok.inj rejects
        have isRowFilter : records.security.rowFilter context table .read =
          .ok filter := isFilter
        rw [KeyedAccess.primaryKey] at stored
        rw [stored, isRowFilter]
        dsimp only [bind, Except.bind]
        simp only [Option.filter, rejected]
        rfl

omit [Platform] in
theorem exists_error_bind
    {α β γ : Type} {first : Except KernelError α}
    {second : α → Except KernelError β} {third : α → Except KernelError γ}
    (fails : ∀ value, ∃ error,
      second value = .error error ∧ third value = .error error) :
    ∃ error, (first >>= second) = .error error ∧ (first >>= third) = .error error := by
  cases first with
  | error error => exact ⟨error, rfl, rfl⟩
  | ok value => exact fails value

theorem checkUpdate_of_unmet
    {row : Row} (unmet : (update row).Unmet records context table snapshot) :
    ∃ error, records.checkUpdate context table row snapshot = .error error ∧
      (update row).answerUnmet records context table = .error error := by
  have none : records.visibleRowWith context table .update (row.primaryKeyValues table)
      (records.retiredRowsReachable context table) snapshot = .ok none :=
    (visibleRowWith_of_unmet unmet :)
  rw [checkUpdate, none, answerUnmet]
  exact exists_error_bind fun _ => exists_error_bind fun _ =>
    exists_error_bind fun _ => ⟨_, rfl, rfl⟩

theorem checkUpdateIfUnchanged_of_unmet
    {row expected : Row}
    (unmet : (updateIfUnchanged row expected).Unmet records context table snapshot) :
    ∃ error, records.checkUpdateIfUnchanged context table row expected snapshot =
        .error error ∧
      (updateIfUnchanged row expected).answerUnmet records context table =
        .error error := by
  have none : records.visibleRow context table .update
      (row.primaryKeyValues table) snapshot = .ok none :=
    (visibleRowWith_of_unmet unmet :)
  rw [checkUpdateIfUnchanged, answerUnmet]
  dsimp only
  rw [none]
  refine exists_error_bind fun _ => exists_error_bind fun _ =>
    exists_error_bind fun _ => exists_error_bind fun _ => ?_
  dsimp only [bind, Except.bind]
  split <;> exact ⟨_, rfl, rfl⟩

theorem checkDeleteIfUnchanged_of_unmet
    {expected : Row}
    (unmet : (deleteIfUnchanged primaryKey expected).Unmet records context
      table snapshot) :
    ∃ error, records.checkDeleteIfUnchanged context table primaryKey expected
        snapshot = .error error ∧
      (deleteIfUnchanged primaryKey expected).answerUnmet records context
        table = .error error := by
  have none : records.visibleRow context table .delete primaryKey snapshot = .ok none :=
    (visibleRowWith_of_unmet unmet :)
  rw [checkDeleteIfUnchanged, none, answerUnmet]
  refine exists_error_bind fun _ => exists_error_bind fun _ =>
    exists_error_bind fun _ => ?_
  dsimp only [bind, Except.bind]
  split <;> exact ⟨_, rfl, rfl⟩

/-- An access that meets no row answers so, and leaves the state as it is. -/
theorem run_of_unmet
    {state : RecordState}
    (unmet : access.Unmet records context table state.transaction) :
    (access.operation records context table).run state =
      (access.answerUnmet records context table, state) := by
  cases access with
  | get primaryKey =>
      rw [← get_of_unmet unmet, operation]
      cases checked : records.reads.get state.transaction context table primaryKey with
      | error error => exact run_reading_bind_of_error checked
      | ok found => exact run_reading_bind_of_ok checked
  | update row =>
      obtain ⟨error, checked, answers⟩ := checkUpdate_of_unmet unmet
      rw [answers, operation, RecordTransaction.update]
      exact run_bind_of_error (run_reading_bind_of_error checked)
  | updateIfUnchanged row expected =>
      obtain ⟨error, checked, answers⟩ := checkUpdateIfUnchanged_of_unmet unmet
      rw [answers, operation, RecordTransaction.updateIfUnchanged]
      exact run_bind_of_error (run_reading_bind_of_error checked)
  | delete primaryKey =>
      have none : records.visibleRow context table .delete primaryKey
          state.transaction = .ok none :=
        (visibleRowWith_of_unmet unmet :)
      rw [answerUnmet, operation, RecordTransaction.delete]
      cases authorized : records.security.authorize context table .delete with
      | error error =>
          have checked : records.checkDelete context table primaryKey
              state.transaction = .error error := by
            rw [checkDelete, authorized]
            rfl
          exact run_bind_of_error (run_reading_bind_of_error checked)
      | ok _ =>
          have checked : records.checkDelete context table primaryKey
              state.transaction = .ok .none := by
            rw [checkDelete, authorized, none]
            rfl
          exact run_bind_of_ok (run_reading_bind_of_ok checked)
  | deleteIfUnchanged primaryKey expected =>
      obtain ⟨error, checked, answers⟩ := checkDeleteIfUnchanged_of_unmet unmet
      rw [answers, operation, RecordTransaction.deleteIfUnchanged]
      exact run_bind_of_error (run_reading_bind_of_error checked)

/-! ## Two states -/

/--
Under a primary key one state holds a row and the other holds nothing; they are
the same otherwise.
-/
structure OneRowApart (table : TableDef) (primaryKey : List Value) (row : Row)
    (first second : RecordState) : Prop where
  stored : readRowUnchecked first.transaction table primaryKey = .ok (some row)
  absent : second.transaction.get (Keys.rowKey table primaryKey) = none
  elsewhere : ∀ key, key ≠ Keys.rowKey table primaryKey →
    first.transaction.get key = second.transaction.get key
  buffered : first.transaction.pending = second.transaction.pending

/-- An access answers the same in two states, and leaves the same buffered. -/
structure AnswersAlike (records : RecordTransaction)
    (context : SecurityContext) (table : TableDef) (access : KeyedAccess)
    (first second : RecordState) : Prop where
  answers : ((access.operation records context table).run first).1 =
      ((access.operation records context table).run second).1
  buffers : ((access.operation records context table).run first).2.transaction.pending =
      ((access.operation records context table).run second).2.transaction.pending

/--
A row that the filter of an access hides is answered for as if it were absent,
and leaves the same writes buffered.
-/
theorem answersAlike_of_hides
    {access : KeyedAccess} {row : Row} {first second : RecordState}
    (apart : OneRowApart table (access.primaryKey table) row first second)
    (hides : access.Hides records context table row) :
    access.AnswersAlike records context table first second := by
  have isAbsent : readRowUnchecked second.transaction table
      (access.primaryKey table) = .ok none := by
    rw [readRowUnchecked, apart.absent]
  have unmet : access.Unmet records context table first.transaction :=
    .inr ⟨row, apart.stored, hides⟩
  have unmet' : access.Unmet records context table second.transaction := .inl isAbsent
  constructor
  · rw [run_of_unmet unmet, run_of_unmet unmet']
  · rw [run_of_unmet unmet, run_of_unmet unmet']
    exact apart.buffered

end

end KeyedAccess

/-! ## A row that is updated but not read -/

/-- Letters, without an index. -/
def lettersBuilder : TableBuilder where
  id := 1
  name := "letters"
  columns := [
    { name := "id", type := .i64 },
    { name := "recipient", type := .i64 }]
  primaryKey := ["id"]

def letters : TableDef where
  id := 1
  name := "letters"
  columns := lettersBuilder.columns.map ColumnSpec.toColumn
  primaryKey := [0]
  bodyColumns := [1]
  storedColumns := [1]
  indexes := []
  checks := []
  foreignKeys := []
  tenantColumn := none
  softDelete := none
  schemaVersion := 0

/-- A clerk may read and update letters; no policy lets it read one. -/
def clerk : SecurityContext where
  principal := ⟨.i64 1, none, ["clerk"]⟩

def sortingOffice : RecordTransaction :=
  { RecordTransaction.plain ⟨[letters]⟩ with
    security := {
      grants := [⟨"clerk", 1, [.read, .update, .delete], none⟩]
      policies := [⟨"sorting", 1, [.update], [], fun _ => .true⟩]
      rlsEnabled := [1] } }

/-- A store that holds one letter. -/
def oneLetter : Kv := (∅ : Kv).insert (Keys.rowKey letters [.i64 1])
    (encodeBody letters ⟨[.i64 1, .i64 10]⟩)

namespace KeyedAccess

theorem oneRowApart_letter :
    OneRowApart letters [.i64 1] ⟨[.i64 1, .i64 10]⟩ (.begin oneLetter) (.begin ∅) := by
  constructor
  · rfl
  · rfl
  · intro key other
    rw [get_begin, get_begin, oneLetter, Std.ExtTreeMap.getElem?_insert, if_neg]
    intro same
    exact other (Std.LawfulEqCmp.eq_of_compare same).symm
  · rfl

/-- A letter that the clerk may not delete is absent to its deletions. -/
theorem answersAlike_delete_letter :
    letI := asciiPlatform
    (delete [.i64 1]).AnswersAlike sortingOffice clerk letters
      (.begin oneLetter) (.begin ∅) := by
  let _ : Platform := asciiPlatform
  exact answersAlike_of_hides oneRowApart_letter rfl

/-- A letter that the clerk does not read is there for its updates. -/
theorem not_answersAlike_unread :
    ¬∀ (_ : Platform) (builder : TableBuilder) (table : TableDef),
      builder.build = .ok table →
      ∀ (records : RecordTransaction) (context : SecurityContext)
        (access : KeyedAccess) (row : Row) (first second : RecordState),
        OneRowApart table (access.primaryKey table) row first second →
        (get (access.primaryKey table)).Hides records context table row →
        access.AnswersAlike records context table first second := by
  intro always
  let _ : Platform := asciiPlatform
  have alike := always asciiPlatform lettersBuilder letters rfl sortingOffice
    clerk (update ⟨[.i64 1, .i64 11]⟩) ⟨[.i64 1, .i64 10]⟩ (.begin oneLetter)
    (.begin ∅) oneRowApart_letter rfl
  have updated : (((update ⟨[.i64 1, .i64 11]⟩).operation sortingOffice clerk
      letters).run (.begin oneLetter)).1 = .ok .done :=
    rfl
  have missing : (((update ⟨[.i64 1, .i64 11]⟩).operation sortingOffice clerk
      letters).run (.begin ∅)).1 = .error (.rowNotFound "letters") :=
    rfl
  cases updated.symm.trans (alike.answers.trans missing)

end KeyedAccess

end SlateOrm
