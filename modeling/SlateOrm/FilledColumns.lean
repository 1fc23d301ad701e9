import SlateOrm.LostUpdates

namespace SlateOrm

open List RecordTransaction

/-!
# Columns that the store fills in

A caller supplies a row, and the record layer writes timestamps into some of its
columns: the managed ones on every write, and the soft-delete column when a row
is retired.  What is written is the supplied row with other values in columns of
the store's own, none of which is part of a primary key.
-/

namespace TableDef

/-- Whether a column's value is supplied on every write. -/
def isStamped (table : TableDef) (ordinal : Ordinal) : Bool :=
  (table.column ordinal).any (fun column => column.managed.isSome)

/-- Whether a column is one that the store writes timestamps into. -/
def isFilled (table : TableDef) (ordinal : Ordinal) : Bool :=
  table.softDelete == some ordinal || table.isStamped ordinal

/-- Timestamps that are all for columns that a write supplies. -/
def Stamps (table : TableDef) (stamps : Ordinal → Option Int64) : Prop :=
  ∀ ordinal, (stamps ordinal).isSome = true → table.isStamped ordinal = true

/-- Timestamps that are all for columns of the store's own. -/
def Fills (table : TableDef) (stamps : Ordinal → Option Int64) : Prop :=
  ∀ ordinal, (stamps ordinal).isSome = true → table.isFilled ordinal = true

theorem Stamps.fills
    {table : TableDef} {stamps : Ordinal → Option Int64}
    (onWrite : table.Stamps stamps) :
    table.Fills stamps := by
  intro ordinal isStamp
  rw [isFilled, onWrite ordinal isStamp, Bool.or_true]

/-- The timestamps of the managed columns of a row that is written. -/
def managedStamps (table : TableDef) (previous : Option Row) (now : Int64)
    (ordinal : Ordinal) : Option Int64 :=
  match table.column ordinal with
  | some column =>
      match column.managed, column.type with
      | some .createdAt, .i64 =>
          match previous.bind (fun before => before.get ordinal) with
          | some (.i64 held) => some held
          | _ => some now
      | some .updatedAt, .i64 => some now
      | _, _ => none
  | none => none

theorem stamps_managedStamps
    (table : TableDef) (previous : Option Row) (now : Int64) :
    table.Stamps (table.managedStamps previous now) := by
  intro ordinal isStamp
  rw [managedStamps] at isStamp
  rw [isStamped]
  cases found : table.column ordinal with
  | none =>
      rw [found] at isStamp
      cases isStamp
  | some column =>
      rw [found] at isStamp
      cases isManaged : column.managed with
      | none =>
          simp only [isManaged] at isStamp
          cases isStamp
      | some _ => simp only [Option.any_some, isManaged, Option.isSome_some]

/-- The timestamp of a row that is retired. -/
def retiredStamp (column : Ordinal) (now : Int64) (ordinal : Ordinal) : Option Int64 :=
  if ordinal = column then some now else none

theorem fills_retiredStamp
    {table : TableDef} {column : Ordinal}
    (retires : table.softDelete = some column)
    (now : Int64) :
    table.Fills (retiredStamp column now) := by
  intro ordinal isStamp
  rw [retiredStamp] at isStamp
  split at isStamp
  · next isColumn => rw [isFilled, retires, isColumn, beq_self_eq_true, Bool.true_or]
  · cases isStamp

end TableDef

namespace Row

/-- A value, or the timestamp that takes its place. -/
def orStamp (value : Value) (stamp : Option Int64) : Value :=
  match stamp with
  | some stamp => .i64 stamp
  | none => value

/-- A row with timestamps in some of its columns. -/
def refilled (row : Row) (stamps : Ordinal → Option Int64) : Row :=
  ⟨row.values.zipIdx.map (fun (value, ordinal) => orStamp value (stamps ordinal))⟩

@[simp] theorem length_refilled
    (row : Row) (stamps : Ordinal → Option Int64) :
    (row.refilled stamps).values.length = row.values.length := by
  rw [refilled, length_map, length_zipIdx]

theorem get_refilled
    (row : Row) (stamps : Ordinal → Option Int64) (ordinal : Ordinal) :
    (row.refilled stamps).get ordinal =
      (row.get ordinal).map (fun value => orStamp value (stamps ordinal)) := by
  simp only [refilled, Row.get, getElem?_map, getElem?_zipIdx,
    Option.map_map, Nat.zero_add]
  rfl

variable {stamps : Ordinal → Option Int64}

theorem get_refilled_of_none
    {row : Row} {ordinal : Ordinal}
    (unfilled : stamps ordinal = none) :
    (row.refilled stamps).get ordinal = row.get ordinal := by
  rw [get_refilled, unfilled]
  exact Option.map_id'

theorem refilled_of_none
    (row : Row)
    (unfilled : ∀ ordinal, stamps ordinal = none) :
    row.refilled stamps = row := by
  have same : (row.refilled stamps).values = row.values :=
    ext_getElem? (fun ordinal => get_refilled_of_none (unfilled ordinal))
  exact congrArg Row.mk same

theorem Fits.refilled
    {row : Row} (fits : row.Fits) (stamps : Ordinal → Option Int64) :
    (row.refilled stamps).Fits := by
  intro value member
  obtain ⟨⟨before, ordinal⟩, inRow, rfl⟩ := mem_map.mp member
  cases stamp : stamps ordinal with
  | none =>
      have inValues : before ∈ row.values := fst_mem_of_mem_zipIdx inRow
      simp only [stamp, orStamp]
      exact fits before inValues
  | some _ =>
      simp only [stamp, orStamp]
      rfl

theorem Same.refilled
    {first second : Row} (same : first.Same second)
    (stamps : Ordinal → Option Int64) :
    (first.refilled stamps).Same (second.refilled stamps) := by
  have sameLength : first.values.length = second.values.length := by
    simpa using congrArg length same
  have sameLength' : (first.refilled stamps).values.length =
      (second.refilled stamps).values.length := by
    rw [length_refilled, length_refilled, sameLength]
  refine same_of_valueOrNull sameLength' ?_
  intro ordinal _
  rw [Row.valueOrNull, Row.valueOrNull, get_refilled, get_refilled]
  rcases same.sameColumns.cases ordinal with
    ⟨left, right⟩ | ⟨value, value', left, right, equal⟩
  · rw [left, right]
  · rw [left, right]
    cases stamps ordinal with
    | none => exact equal
    | some _ => rfl

theorem primaryKeyValues_refilled
    {table : TableDef}
    (wellFormed : table.WellFormed)
    (fills : table.Fills stamps) (row : Row) :
    (row.refilled stamps).primaryKeyValues table = row.primaryKeyValues table := by
  refine map_congr_left (fun ordinal inKey => ?_)
  obtain ⟨column, isColumn, notNull, _, unmanaged⟩ := wellFormed.key ordinal inKey
  have unfilled : stamps ordinal = none := by
    cases stamp : stamps ordinal with
    | none => rfl
    | some _ =>
        have isFilled := fills ordinal (by rw [stamp]; rfl)
        rw [TableDef.isFilled, TableDef.isStamped, isColumn, Option.any_some,
          unmanaged, Option.isSome_none, Bool.or_false, beq_iff_eq] at isFilled
        obtain ⟨retiring, isRetiring, retires⟩ := wellFormed.softDelete ordinal isFilled
        rw [isRetiring] at isColumn
        cases isColumn
        rw [retires.nullable] at notNull
        cases notNull
  rw [valueOrNull, valueOrNull, get_refilled_of_none unfilled]

end Row

namespace RecordTransaction

theorem retired_eq_refilled
    (row : Row) (column : Ordinal) (now : Int64) :
    (⟨row.values.set column (.i64 now)⟩ : Row) =
      row.refilled (TableDef.retiredStamp column now) := by
  have sameValues : row.values.set column (.i64 now) =
      (row.refilled (TableDef.retiredStamp column now)).values := by
    refine ext_getElem? (fun ordinal => ?_)
    have filled := row.get_refilled (TableDef.retiredStamp column now) ordinal
    rw [Row.get, Row.get] at filled
    rw [filled, getElem?_set, TableDef.retiredStamp]
    by_cases isColumn : column = ordinal
    · subst isColumn
      simp only [if_true]
      split
      · next inRow =>
          rw [getElem?_eq_getElem inRow]
          rfl
      · next outside =>
          rw [getElem?_eq_none (Nat.le_of_not_lt outside)]
          rfl
    · rw [if_neg isColumn, if_neg (Ne.symm isColumn)]
      exact Option.map_id'.symm
  exact congrArg Row.mk sameValues

/-- The timestamps that a row gets when it is written. -/
def stampsOf (records : RecordTransaction) (table : TableDef)
    (previous : Option Row) (readings : Nat) : Ordinal → Option Int64 :=
  if table.isManaged then
    table.managedStamps previous (records.clock readings)
  else
    fun _ => none

theorem stamps_stampsOf
    (records : RecordTransaction) (table : TableDef) (previous : Option Row)
    (readings : Nat) :
    table.Stamps (records.stampsOf table previous readings) := by
  rw [stampsOf]
  split
  · exact table.stamps_managedStamps previous _
  · intro ordinal isStamp
    cases isStamp

/-- A row is written with timestamps in its managed columns. -/
theorem stamped_eq_refilled
    (records : RecordTransaction) (table : TableDef) (row : Row)
    (previous : Option Row) (readings : Nat) :
    records.stamped table row previous readings =
      row.refilled (records.stampsOf table previous readings) := by
  rw [stamped, stampsOf]
  split
  · refine congrArg Row.mk (map_congr_left (fun pair _ => ?_))
    obtain ⟨value, ordinal⟩ := pair
    simp only [TableDef.managedStamps]
    cases table.column ordinal with
    | none => rfl
    | some column =>
        dsimp only
        cases column.managed with
        | none => rfl
        | some managed =>
            cases column.type with
            | i64 =>
                cases managed with
                | createdAt =>
                    cases previous.bind (fun before => before.get ordinal) with
                    | none => rfl
                    | some held => cases held <;> rfl
                | updatedAt => rfl
            | _ => cases managed <;> rfl
  · exact (Row.refilled_of_none row (fun _ => rfl)).symm

end RecordTransaction

/-! ## Tables that timestamps do not disturb -/

namespace TableDef

variable [Platform]

/--
A table whose rows stay valid whatever timestamps stand in the columns that the
store fills in.
-/
def StaysValid (table : TableDef) : Prop :=
  ∀ (row : Row) (stamps : Ordinal → Option Int64),
    table.Fills stamps → row.validate table = .ok () →
      (row.refilled stamps).validate table = .ok ()

/-- A table whose unique indexes do not look at what a write supplies. -/
def SlotsUnstamped (table : TableDef) : Prop :=
  ∀ index ∈ table.indexes, index.unique = true →
    ∀ (row : Row) (stamps : Ordinal → Option Int64), table.Stamps stamps →
      index.admits (row.refilled stamps) = index.admits row ∧
        index.keyValues (row.refilled stamps) = index.keyValues row

variable {stamps : Ordinal → Option Int64} {table : TableDef}

theorem SlotsUnstamped.uniqueSlot
    (wellFormed : table.WellFormed)
    (unstamped : table.SlotsUnstamped) {index : IndexDef}
    (declared : index ∈ table.indexes)
    (isUnique : index.unique = true)
    (row : Row) (onWrite : table.Stamps stamps) :
    uniqueSlot table index (row.refilled stamps) = uniqueSlot table index row := by
  obtain ⟨sameAdmits, sameKey⟩ := unstamped index declared isUnique row stamps onWrite
  rw [RecordTransaction.uniqueSlot, RecordTransaction.uniqueSlot, sameAdmits,
    sameKey, Row.primaryKeyValues_refilled wellFormed onWrite.fills]

omit [Platform] in
theorem Stamps.eq_none
    (unmanaged : table.isManaged = false)
    (onWrite : table.Stamps stamps) (ordinal : Ordinal) :
    stamps ordinal = none := by
  cases stamp : stamps ordinal with
  | none => rfl
  | some _ =>
      have isStamped := onWrite ordinal (by rw [stamp]; rfl)
      rw [TableDef.isStamped, Option.any_eq_true] at isStamped
      obtain ⟨column, found, isManaged⟩ := isStamped
      rw [TableDef.isManaged, any_eq_false] at unmanaged
      exact absurd isManaged (unmanaged column (mem_of_getElem? found))

theorem staysValid_of_unfilled
    (unmanaged : table.isManaged = false)
    (erases : table.softDelete = none) :
    table.StaysValid := by
  intro row stamps fills valid
  have onWrite : table.Stamps stamps := by
    intro ordinal isStamp
    have isFilled := fills ordinal isStamp
    rw [TableDef.isFilled, erases] at isFilled
    simpa using isFilled
  rw [Row.refilled_of_none row (onWrite.eq_none unmanaged)]
  exact valid

theorem slotsUnstamped_of_unmanaged
    (unmanaged : table.isManaged = false) :
    table.SlotsUnstamped := by
  intro index _ _ row stamps onWrite
  rw [Row.refilled_of_none row (onWrite.eq_none unmanaged)]
  exact ⟨rfl, rfl⟩

end TableDef

end SlateOrm
