import SlateOrm.QueryReads

namespace SlateOrm

/-!
# Relationships

A relationship is declared between two record types by a column of each, and is
loaded for all parents at once: one read fetches every child, and the children
are then given to the parents whose value they hold.  Two levels are loaded by
two reads, the second for the children of all parents together, and what it
brings is split again by how many children each parent had.
-/

/-! ## Records -/

/-- Why a stored value does not fit a field. -/
inductive FieldError where
  | typeMismatch (expected : ValueType) (found : String)
  | unexpectedNull (expected : ValueType)
  | outOfRange (target : String)

/-- Why a stored row does not fit its type. -/
inductive RecordError where
  | field (table column : String) (source : FieldError)
  | columnCount (table : String) (expected actual : Nat)

/-- Why records are not read. -/
inductive OrmError where
  | kernel (source : KernelError)
  | record (source : RecordError)

/-- A type that maps to one table. -/
class Record (α : Type) where
  table : TableDef
  toRow : α → Row
  fromRow : Row → Except RecordError α

/-- A type whose records are what their rows are converted back to. -/
class LawfulRecord (α : Type) [Record α] : Prop where
  fromRow_toRow : ∀ record : α, Record.fromRow (Record.toRow record) = .ok record

/-- A relationship, by a column of each side. -/
class Related (α β : Type) where
  localColumn : Ordinal
  foreignColumn : Ordinal

/-- What runs a query and decodes the results. -/
structure Records where
  findRecords : (α : Type) → [Record α] → SecurityContext → Expr → ScanOrder →
    Except OrmError (List α)

/-- A failure to decode, where records are read. -/
def liftRecord {α : Type} : Except RecordError α → Except OrmError α
  | .ok value => .ok value
  | .error source => .error (.record source)

/-- One record's value of a column. -/
def Record.valueAt {α : Type} [Record α] (record : α) (column : Ordinal) :
    Except OrmError Value :=
  let row := Record.toRow record
  match row.get column with
  | some value => .ok value
  | none =>
      .error (.record (.columnCount (Record.table α).name (column + 1)
        row.values.length))

/-! ## Groups by value -/

/-- The values of a filter: sorted, each once. -/
def sortedKeys (values : List Value) : List Value :=
  dedup (values.insertionSort (fun first second => first.cmp second ≠ .gt))

section

variable {α : Type}

/-- Add a child to the group of a key. -/
def pushGroup (key : Value) (child : α) : List (Value × List α) → List (Value × List α)
  | [] => [(key, [child])]
  | entry :: rest =>
      if entry.1.cmp key = .eq then
        (entry.1, entry.2 ++ [child]) :: rest
      else
        entry :: pushGroup key child rest

/-- The group of a key, if there is any. -/
def findGroup (key : Value) (groups : List (Value × List α)) : Option (List α) :=
  (groups.find? (fun entry => entry.1.cmp key = .eq)).map Prod.snd

theorem findGroup_cons
    (key : Value) (entry : Value × List α) (rest : List (Value × List α)) :
    findGroup key (entry :: rest) =
      if entry.1.cmp key = .eq then some entry.2 else findGroup key rest := by
  rw [findGroup, List.find?_cons]
  split <;> simp_all [findGroup]

theorem findGroup_pushGroup
    (key key' : Value) (child : α) (groups : List (Value × List α)) :
    (findGroup key' (pushGroup key child groups)).getD [] =
      (findGroup key' groups).getD [] ++
        if key.cmp key' = .eq then [child] else [] := by
  induction groups with
  | nil =>
      rw [pushGroup, findGroup_cons]
      split <;> rfl
  | cons entry rest ih =>
      rw [pushGroup, findGroup_cons]
      by_cases here : entry.1.cmp key = .eq
      · -- The keys of the entry and of the child are under the same keys.
        have same : entry.1.cmp key' = .eq ↔ key.cmp key' = .eq := by
          rw [Value.cmp_eq_iff_canonical] at here
          rw [Value.cmp_eq_iff_canonical, Value.cmp_eq_iff_canonical, here]
        rw [if_pos here, findGroup_cons]
        simp only [same]
        split <;> simp
      · rw [if_neg here, findGroup_cons]
        by_cases found : entry.1.cmp key' = .eq
        · have apart : key.cmp key' ≠ .eq := by
            rw [Value.cmp_eq_iff_canonical] at here found
            rw [Ne, Value.cmp_eq_iff_canonical, ← found]
            exact fun same => here same.symm
          simp [found, apart]
        · rw [if_neg found, if_neg found, ih]

end

/-! ## Loading -/

section

variable {α β γ : Type} [Record α] [Record β] [Record γ]

/-- The filter that selects every parent's related rows. -/
def relatedFilter (β : Type) [Related α β] (parents : List α) :
    Except OrmError Expr := do
  let values ← parents.mapM (fun parent =>
    Record.valueAt parent (Related.localColumn α β))
  return .in (Related.foreignColumn α β) (sortedKeys values)

/-- Every parent's related records, in parent order, from one read. -/
def loadRelated (β : Type) [Record β] [Related α β] (store : Records)
    (context : SecurityContext) (parents : List α) :
    Except OrmError (List (List β)) :=
  if parents.isEmpty then
    .ok []
  else do
    let keys ← parents.mapM (fun parent =>
      Record.valueAt parent (Related.localColumn α β))
    let filter ← relatedFilter β parents
    let children ← store.findRecords β context filter .ascending
    let byKey ← children.foldlM (fun byKey child => do
      let key ← Record.valueAt child (Related.foreignColumn α β)
      return pushGroup key child byKey) []
    keys.mapM (fun key =>
      match findGroup key byKey with
      | none => .ok []
      | some found =>
          found.mapM (fun child => liftRecord (Record.fromRow (Record.toRow child))))

/-- Take as many of the pairs as each group has. -/
def regroup {δ : Type} : List Nat → List δ → List (List δ)
  | [], _ => []
  | count :: counts, pairs => pairs.take count :: regroup counts (pairs.drop count)

/-- Every parent's children, each with its own children, from two reads. -/
def loadNested (β γ : Type) [Record β] [Record γ] [Related α β] [Related β γ]
    (store : Records) (context : SecurityContext) (parents : List α) :
    Except OrmError (List (List (β × List γ))) := do
  let perParent ← loadRelated β store context parents
  let counts := perParent.map List.length
  let flat := perParent.flatten
  if flat.isEmpty then
    return counts.map (fun _ => [])
  else
    let perChild ← loadRelated γ store context flat
    return regroup counts (flat.zip perChild)

/-- Every parent's related records through a join table. -/
def loadRelatedThrough (β γ : Type) [Record β] [Record γ] [Related α β]
    [Related β γ] (store : Records) (context : SecurityContext)
    (parents : List α) : Except OrmError (List (List γ)) := do
  let nested ← loadNested β γ store context parents
  return nested.map (fun perParent => perParent.flatMap Prod.snd)

end

end SlateOrm
