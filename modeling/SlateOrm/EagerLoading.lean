import SlateOrm.KeyedFolds
import SlateOrm.ReferencingRows
import SlateOrm.Relations

namespace SlateOrm

open List

/-!
# Eager loading

Whatever a store reads of the children of all parents, each parent is given
those that hold its value, in the order they were read.  What a child is given
when the children of all parents are loaded together is what it is given alone.
-/

/-! ## What is related -/

/-- Values of which one column is equal to a value and not null. -/
def relatesOver (key : Value) (column : Ordinal) (values : List Value) :
    Bool :=
  values[column]?.any (fun value => !value.isNull && value == key)

section

variable {α : Type} [Record α]

/-- What a record's values are equal to. -/
def shown (record : α) : List Value := (Record.toRow record).canonical

/-- A record is related by a column to what has a value. -/
def relates (key : Value) (column : Ordinal) (record : α) : Bool :=
  relatesOver key column (Record.toRow record).values

theorem relatesOver_shown
    (key : Value) (column : Ordinal) (record : α) :
    relatesOver key column (shown record) = relates key column record := by
  rw [relates, relatesOver, relatesOver, shown, Row.canonical,
    getElem?_map, Option.any_map]
  congr 1
  funext value
  have equal : (value.canonical == key) = (value == key) := by
    rw [Bool.eq_iff_iff, Value.beq_iff_canonical, Value.beq_iff_canonical, ←
      Value.cmp_eq_iff_canonical, Value.cmp_canonical_left, Value.cmp_eq_iff_canonical]
  simp [equal]

theorem admits_in_iff
    [Platform] (column : Ordinal) (values : List Value) (row : Row) :
    (Expr.in column values).admits row = true ↔
      ∃ key ∈ values, relatesOver key column row.values = true := by
  rw [Expr.admits, Expr.evaluate, Truth.admits_iff, Expr.evaluateOver,
    evaluateIn_eq_true_iff]
  simp only [relatesOver, Option.any_eq_true, Bool.and_eq_true,
    Bool.not_eq_true', Value.beq_iff_canonical]
  constructor
  · rintro ⟨actual, found, present, key, isKey, _, same⟩
    exact ⟨key, isKey, actual, found, present, same.symm⟩
  · rintro ⟨key, isKey, actual, found, present, same⟩
    refine ⟨actual, found, present, key, isKey, ?_, same.symm⟩
    rw [← Value.isNull_canonical, ← same, Value.isNull_canonical, present]

variable {column : Ordinal}

theorem Record.valueAt_eq_ok
    {record : α} {value : Value} :
    Record.valueAt record column = .ok value ↔
      (Record.toRow record).values[column]? = some value := by
  rw [Record.valueAt, Row.get]
  cases (Record.toRow record).values[column]? <;> simp

/-- A child that holds a key in a column, be it null. -/
def holdsKey (key : Value) (column : Ordinal) (record : α) : Bool :=
  (Record.toRow record).values[column]?.any (fun value => value.cmp key == .eq)

theorem holdsKey_eq_relates
    {record : α} {value : Value}
    (found : (Record.toRow record).values[column]? = some value)
    (present : value.isNull = false)
    (key : Value) :
    holdsKey key column record = relates key column record := by
  rw [holdsKey, relates, relatesOver, found, Option.any_some, Option.any_some,
    present, Bool.eq_iff_iff, beq_iff_eq, Value.cmp_eq_iff_canonical]
  simp [Value.beq_iff_canonical]

/-! ## Groups -/

theorem exists_byKey_iff
    (column : Ordinal) (children : List α) :
    (∃ byKey, children.foldlM (fun byKey child => do
        let key ← Record.valueAt child column
        return pushGroup key child byKey) [] = .ok byKey) ↔
      ∀ child ∈ children, ∃ key, Record.valueAt child column = .ok key := by
  refine exists_foldlM_of_steps (fun child _ byKey => ?_) []
  constructor
  · rintro ⟨next, stepped⟩
    obtain ⟨key, isKey, _⟩ := bind_eq_ok.mp stepped
    exact ⟨key, isKey⟩
  · rintro ⟨key, isKey⟩
    exact ⟨_, bind_eq_ok.mpr ⟨key, isKey, rfl⟩⟩

theorem findGroup_byKey
    {children : List α} {groups byKey : List (Value × List α)}
    (folded : children.foldlM (fun byKey child => do
        let key ← Record.valueAt child column
        return pushGroup key child byKey) groups = .ok byKey)
    (key : Value) :
    (findGroup key byKey).getD [] = (findGroup key groups).getD [] ++
        children.filter (holdsKey key column) := by
  induction children generalizing groups with
  | nil =>
      cases folded
      simp
  | cons child rest ih =>
      obtain ⟨next, stepped, folded⟩ := foldlM_cons_ok.mp folded
      obtain ⟨childKey, isKey, isNext⟩ := bind_eq_ok.mp stepped
      cases isNext
      have holds : holdsKey key column child = (childKey.cmp key == .eq) := by
        rw [holdsKey, Record.valueAt_eq_ok.mp isKey, Option.any_some]
      rw [ih folded, findGroup_pushGroup, filter_cons, holds, append_assoc]
      by_cases same : childKey.cmp key = .eq <;> simp [same]

theorem mapM_redecode
    [LawfulRecord α] (records : List α) :
    records.mapM (fun record =>
      liftRecord (Record.fromRow (Record.toRow record))) = .ok records := by
  rw [mapM_ok_iff, forall₂_same]
  intro record _
  rw [LawfulRecord.fromRow_toRow]
  rfl

end

/-! ## One read -/

section

variable {α β : Type} [Record α] [Record β] [Related α β]

omit [Record β] in
theorem relatedFilter_eq_ok_iff
    {parents : List α} {filter : Expr} :
    relatedFilter β parents = .ok filter ↔ ∃ keys, parents.mapM (fun parent =>
          Record.valueAt parent (Related.localColumn α β)) = .ok keys ∧
        filter = .in (Related.foreignColumn α β) (sortedKeys keys) := by
  rw [relatedFilter]
  constructor
  · intro isFilter
    obtain ⟨keys, isKeys, same⟩ := bind_eq_ok.mp isFilter
    cases same
    exact ⟨keys, isKeys, rfl⟩
  · rintro ⟨keys, isKeys, rfl⟩
    exact bind_eq_ok.mpr ⟨keys, isKeys, rfl⟩

theorem mapM_findGroup
    [LawfulRecord β] (keys : List Value) (byKey : List (Value × List β)) :
    keys.mapM (fun key =>
      match findGroup key byKey with
      | none => (.ok [] : Except OrmError (List β))
      | some found =>
          found.mapM (fun child => liftRecord (Record.fromRow (Record.toRow child)))) =
      .ok (keys.map (fun key => (findGroup key byKey).getD [])) := by
  rw [mapM_ok_iff, forall₂_map_right_iff, forall₂_same]
  intro key _
  cases findGroup key byKey with
  | none => rfl
  | some found => exact mapM_redecode found

/-- Each parent is loaded the children that were read and hold its value. -/
theorem loadRelated_eq_ok_iff
    [LawfulRecord β] {store : Records} {context : SecurityContext}
    {parents : List α}
    (some_ : parents ≠ [])
    {groups : List (List β)} :
    loadRelated β store context parents = .ok groups ↔
      ∃ keys children, parents.mapM (fun parent =>
          Record.valueAt parent (Related.localColumn α β)) = .ok keys ∧
        store.findRecords β context
          (.in (Related.foreignColumn α β) (sortedKeys keys)) .ascending =
            .ok children ∧
        (∀ child ∈ children, ∃ key,
          Record.valueAt child (Related.foreignColumn α β) = .ok key) ∧
        groups = keys.map (fun key =>
          children.filter (holdsKey key (Related.foreignColumn α β))) := by
  have grouped : ∀ {children : List β} {byKey : List (Value × List β)},
      children.foldlM (fun byKey child => do
        let key ← Record.valueAt child (Related.foreignColumn α β)
        return pushGroup key child byKey) [] = .ok byKey →
      ∀ key, (findGroup key byKey).getD [] =
        children.filter (holdsKey key (Related.foreignColumn α β)) := by
    intro children byKey folded key
    simpa [findGroup] using findGroup_byKey folded key
  rw [loadRelated, if_neg (by simpa using some_)]
  constructor
  · intro loaded
    obtain ⟨keys, isKeys, filtered⟩ := bind_eq_ok.mp loaded
    obtain ⟨filter, isFilter, reading⟩ := bind_eq_ok.mp filtered
    obtain ⟨children, isRead, grouping⟩ := bind_eq_ok.mp reading
    obtain ⟨byKey, folded, given⟩ := bind_eq_ok.mp grouping
    obtain ⟨keys', isKeys', isIn⟩ := relatedFilter_eq_ok_iff.mp isFilter
    cases isKeys.symm.trans isKeys'
    cases Except.ok.inj ((mapM_findGroup keys byKey).symm.trans given)
    exact ⟨keys, children, isKeys, isIn ▸ isRead, (exists_byKey_iff _ children).mp
      ⟨byKey, folded⟩, map_congr_left fun key _ => grouped folded key⟩
  · rintro ⟨keys, children, isKeys, isRead, hold, rfl⟩
    obtain ⟨byKey, folded⟩ := (exists_byKey_iff _ children).mpr hold
    refine bind_eq_ok.mpr ⟨keys, isKeys, bind_eq_ok.mpr ⟨_,
      relatedFilter_eq_ok_iff.mpr ⟨keys, isKeys, rfl⟩, bind_eq_ok.mpr
        ⟨children, isRead, bind_eq_ok.mpr ⟨byKey, folded, ?_⟩⟩⟩⟩
    exact (mapM_findGroup keys byKey).trans (congrArg Except.ok
      (map_congr_left fun key _ => grouped folded key))

end

/-! ## Stores that answer -/

section

variable [Platform] {α β : Type} [Record α] [Record β] [Related α β]

/-- What a store reads by values of a column is what it holds for the caller
and the filter admits, up to the order the two are compared in. -/
def Records.Answers (store : Records) (context : SecurityContext)
    (same : List (List Value) → List (List Value) → Prop) (held : List β) :
    Prop :=
  ∀ column values children,
    store.findRecords β context (.in column values) .ascending = .ok children →
    same (children.map shown) ((held.filter (fun record =>
        (Expr.in column values).admits (Record.toRow record))).map shown)

omit [Platform] in
theorem filter_map_shown
    (key : Value) (column : Ordinal) (records : List β) :
    (records.map shown).filter (relatesOver key column) =
      (records.filter (relates key column)).map shown := by
  rw [filter_map]
  congr 2
  funext record
  exact relatesOver_shown key column record

variable {context : SecurityContext} {values : List Value} {store : Records}
  {column : Ordinal} {same : List (List Value) → List (List Value) → Prop}

theorem relates_of_answers
    {held : List β} (answers : store.Answers context List.Perm held)
    {children : List β}
    (isRead : store.findRecords β context (.in column values) .ascending = .ok children)
    {child : β}
    (isChild : child ∈ children) :
    ∃ key ∈ values, relates key column child = true := by
  have isShown := (answers column values children isRead).subset
    (mem_map_of_mem isChild)
  obtain ⟨record, isHeld, sameShown⟩ := mem_map.mp isShown
  obtain ⟨key, isKey, related⟩ :=
    (admits_in_iff column values _).mp (mem_filter.mp isHeld).2
  refine ⟨key, isKey, ?_⟩
  rw [← relatesOver_shown, ← sameShown, relatesOver_shown]
  exact related

theorem same_relates_of_answers
    (filters : ∀ first second, same first second →
      ∀ kept : List Value → Bool, same (first.filter kept) (second.filter kept))
    {held : List β} (answers : store.Answers context same held)
    {children : List β}
    (isRead : store.findRecords β context (.in column values) .ascending = .ok children)
    {key key' : Value}
    (isKey : key' ∈ values)
    (equal : (key' == key) = true) :
    same ((children.filter (relates key column)).map shown)
      ((held.filter (relates key column)).map shown) := by
  have kept := filters _ _ (answers column values children isRead)
    (relatesOver key column)
  rw [filter_map_shown, filter_map_shown, filter_filter] at kept
  have narrower : held.filter (fun record => relates key column record &&
      (Expr.in column values).admits (Record.toRow record)) =
      held.filter (relates key column) := by
    refine filter_congr fun record _ => ?_
    cases related : relates key column record with
    | false => rfl
    | true =>
        refine (admits_in_iff column values _).mpr ⟨key', isKey, ?_⟩
        simp only [relates, relatesOver, Option.any_eq_true,
          Bool.and_eq_true, Value.beq_iff_canonical] at related equal ⊢
        obtain ⟨value, found, present, sameValue⟩ := related
        exact ⟨value, found, present, sameValue.trans equal.symm⟩
  rwa [narrower] at kept

omit [Platform] in
theorem exists_mem_sortedKeys
    {key : Value} {keys : List Value}
    (isKey : key ∈ keys) :
    ∃ key' ∈ sortedKeys keys, (key' == key) = true := by
  have inSorted : key ∈ keys.insertionSort
      (fun first second => first.cmp second ≠ .gt) :=
    (mem_insertionSort _).mpr isKey
  obtain ⟨key', isKey', equal⟩ := exists_mem_dedup inSorted
  refine ⟨key', isKey', (Value.beq_iff_canonical _ _).mpr ?_⟩
  rcases equal with rfl | equal
  · rfl
  · exact ((Value.beq_iff_canonical _ _).mp equal).symm

omit [Platform] in
theorem relates_of_isNull
    {key : Value}
    (isNull : key.isNull = true)
    (column : Ordinal) (record : β) :
    relates key column record = false := by
  cases related : relates key column record with
  | false => rfl
  | true =>
      simp only [relates, relatesOver, Option.any_eq_true, Bool.and_eq_true,
        Bool.not_eq_true', Value.beq_iff_canonical] at related
      obtain ⟨value, _, present, equal⟩ := related
      rw [← Value.isNull_canonical, equal, Value.isNull_canonical, isNull] at present
      cases present

theorem filter_holdsKey
    {held : List β} (answers : store.Answers context List.Perm held)
    {children : List β}
    (isRead : store.findRecords β context (.in column values) .ascending = .ok children)
    (key : Value) :
    children.filter (holdsKey key column) = children.filter (relates key column) := by
  refine filter_congr fun child isChild => ?_
  obtain ⟨_, _, related⟩ := relates_of_answers answers isRead isChild
  simp only [relates, relatesOver, Option.any_eq_true, Bool.and_eq_true,
    Bool.not_eq_true'] at related
  obtain ⟨value, found, present, _⟩ := related
  exact holdsKey_eq_relates found present key

/-- A parent is given, of the children that are read for all parents, those
that are related to it, and these are all there are. -/
def Records.Gives (store : Records) (context : SecurityContext)
    (same : List (List Value) → List (List Value) → Prop) (held : List β)
    (parents : List α) (parent : α) (group : List β) : Prop :=
  ∃ key filter children, Record.valueAt parent (Related.localColumn α β) = .ok key ∧
      relatedFilter β parents = .ok filter ∧
      store.findRecords β context filter .ascending = .ok children ∧
      group = children.filter (relates key (Related.foreignColumn α β)) ∧
      (key.isNull = true → group = []) ∧
      same (group.map shown)
        ((held.filter (relates key (Related.foreignColumn α β))).map shown)

/-- Each parent is given what is related to it. -/
theorem forall₂_loadRelated
    [LawfulRecord β]
    (filters : ∀ first second, same first second →
      ∀ kept : List Value → Bool, same (first.filter kept) (second.filter kept))
    {held : List β} (answers : store.Answers context List.Perm held)
    (answersSame : store.Answers context same held) {parents : List α}
    {groups : List (List β)}
    (loaded : loadRelated β store context parents = .ok groups) :
    List.Forall₂ (store.Gives context same held parents) parents groups := by
  rcases parents.eq_nil_or_concat with rfl | isConcat
  · cases loaded
    exact List.Forall₂.nil
  have some_ : parents ≠ [] := by
    obtain ⟨others, last, rfl⟩ := isConcat
    simp
  obtain ⟨keys, children, isKeys, isRead, _, rfl⟩ :=
    (loadRelated_eq_ok_iff some_).mp loaded
  obtain ⟨sameLength, each⟩ := forall₂_iff_get.mp (mapM_ok_iff.mp isKeys)
  rw [forall₂_map_right_iff, forall₂_iff_get]
  refine ⟨sameLength, fun place inside inside' => ?_⟩
  obtain ⟨key', isKey', equal⟩ := exists_mem_sortedKeys (get_mem keys ⟨place, inside'⟩)
  refine ⟨_, _, children, each place inside inside', relatedFilter_eq_ok_iff.mpr
    ⟨keys, isKeys, rfl⟩, isRead, filter_holdsKey answers isRead _, fun isNull => ?_, ?_⟩
  · rw [filter_holdsKey answers isRead, filter_eq_nil_iff]
    intro child _
    rw [relates_of_isNull isNull]
    exact Bool.false_ne_true
  · rw [filter_holdsKey answers isRead]
    exact same_relates_of_answers filters answersSame isRead isKey' equal

omit [Platform] [Record β] in
theorem forall₂_regroup
    {γ : Type} {gets : β → γ → Prop} {groups : List (List β)} {far : List γ}
    (each : List.Forall₂ gets groups.flatten far) :
    List.Forall₂ (fun group pairs => pairs.map Prod.fst = group ∧
        ∀ pair ∈ pairs, gets pair.1 pair.2)
      groups (regroup (groups.map length) (groups.flatten.zip far)) := by
  induction groups generalizing far with
  | nil => exact List.Forall₂.nil
  | cons group rest ih =>
      rw [flatten_cons] at each ⊢
      have ofGroup := forall₂_take group.length each
      have ofRest := forall₂_drop group.length each
      rw [take_left] at ofGroup
      rw [drop_left] at ofRest
      have pairs : (group ++ rest.flatten).zip far =
          group.zip (far.take group.length) ++
            rest.flatten.zip (far.drop group.length) := by
        rw [← zip_append ofGroup.length_eq, take_append_drop]
      have count : (group.zip (far.take group.length)).length =
          group.length := by
        rw [length_zip, ← ofGroup.length_eq, Nat.min_self]
      rw [map_cons, regroup, pairs, take_left' count, drop_left' count]
      refine List.Forall₂.cons ⟨?_, ?_⟩ (ih ofRest)
      · exact map_fst_zip ofGroup.length_eq.le
      · rintro ⟨child, found⟩ isPair
        exact forall₂_zip ofGroup isPair

end

/-! ## Two levels -/

section

variable
  [Platform]
  {α β γ : Type}
  [Record α]
  [Record β]
  [Record γ]
  [Related α β]
  [Related β γ]

/-- What is loaded with a child: all that is related to it, which is what is
loaded for the child alone. -/
def Records.GivesAlone (store : Records) (context : SecurityContext)
    (held : List γ) (child : β) (far : List γ) : Prop :=
  ∃ key, Record.valueAt child (Related.localColumn β γ) = .ok key ∧
    (far.map shown).Perm ((held.filter
      (relates key (Related.foreignColumn β γ))).map shown) ∧
    ∀ singles, loadRelated γ store context [child] = .ok singles →
      ∃ single, singles = [single] ∧ (far.map shown).Perm (single.map shown) ∧
        (store.Answers context Eq held → far.map shown = single.map shown)

variable {context : SecurityContext}

theorem forall₂_givesAlone
    [LawfulRecord γ] {store : Records} {held : List γ}
    (answers : store.Answers context List.Perm held) {children : List β}
    {far : List (List γ)}
    (loaded : loadRelated γ store context children = .ok far) :
    List.Forall₂ (store.GivesAlone context held) children far := by
  -- In order, if the store reads in one order.
  let same (first second : List (List Value)) : Prop :=
    first.Perm second ∧ (store.Answers context Eq held → first = second)
  have filters : ∀ first second, same first second → ∀ kept : List Value → Bool,
        same (first.filter kept) (second.filter kept) :=
    fun _ _ alike kept => ⟨alike.1.filter kept, fun inOrder =>
      congrArg (filter kept) (alike.2 inOrder)⟩
  have answersSame : store.Answers context same held :=
    fun column values children isRead =>
      ⟨answers column values children isRead,
        fun inOrder => inOrder column values children isRead⟩
  refine (forall₂_loadRelated filters answers answersSame loaded).imp ?_
  rintro child group ⟨key, _, _, isKey, _, _, _, _, perm, inOrder⟩
  refine ⟨key, isKey, perm, fun singles isLoaded => ?_⟩
  have alone := forall₂_loadRelated filters answers answersSame isLoaded
  obtain ⟨single, _, ⟨key', _, _, isKey', _, _, _, _, perm', inOrder'⟩,
    nothing, rfl⟩ := forall₂_cons_left_iff.mp alone
  cases nothing
  cases isKey.symm.trans isKey'
  exact ⟨single, rfl, perm.trans perm'.symm, fun isEq =>
    (inOrder isEq).trans (inOrder' isEq).symm⟩

omit [Platform] in
/-- Two levels are loaded when each is. -/
theorem loadNested_eq_ok_iff
    {store : Records} {parents : List α} {nested : List (List (β × List γ))} :
    loadNested β γ store context parents = .ok nested ↔
      ∃ groups far, loadRelated β store context parents = .ok groups ∧
        loadRelated γ store context groups.flatten = .ok far ∧
        nested = regroup (groups.map length) (groups.flatten.zip far) := by
  have regroup_nil : ∀ counts : List Nat,
      regroup counts ([] : List (β × List γ)) = counts.map (fun _ => []) := by
    intro counts
    induction counts with
    | nil => rfl
    | cons count rest ih => rw [regroup, take_nil, drop_nil, ih, map_cons]
  rw [loadNested]
  constructor
  · intro loaded
    obtain ⟨groups, isGroups, rest⟩ := bind_eq_ok.mp loaded
    dsimp only at rest
    split at rest
    · next none_ =>
        cases rest
        rw [List.isEmpty_iff] at none_
        refine ⟨groups, [], isGroups, ?_, ?_⟩
        · rw [none_]
          rfl
        · rw [none_, zip_nil_left, regroup_nil]
    · obtain ⟨far, isFar, same⟩ := bind_eq_ok.mp rest
      cases same
      exact ⟨groups, far, isGroups, isFar, rfl⟩
  · rintro ⟨groups, far, isGroups, isFar, rfl⟩
    refine bind_eq_ok.mpr ⟨groups, isGroups, ?_⟩
    dsimp only
    split
    · next none_ =>
        rw [List.isEmpty_iff] at none_
        rw [none_, zip_nil_left, regroup_nil]
        rfl
    · exact bind_eq_ok.mpr ⟨far, isFar, rfl⟩

/-- Each parent is loaded the children that hold its value, in the order they
were read; loaded in two levels, these have with them what each of them is
loaded alone; and through a join table that is put together. -/
theorem eagerLoading_exact
    [LawfulRecord β] [LawfulRecord γ] {store : Records}
    {context : SecurityContext} {children : List β}
    (answers : store.Answers context List.Perm children)
    {grandchildren : List γ}
    (answersNested : store.Answers context List.Perm grandchildren)
    (parents : List α) :
    ((∃ groups, loadRelated β store context parents = .ok groups) ↔
        parents = [] ∨ ∃ filter found, relatedFilter β parents = .ok filter ∧
            store.findRecords β context filter .ascending = .ok found ∧
            ∀ child ∈ found, ∃ key,
              Record.valueAt child (Related.foreignColumn α β) = .ok key) ∧
      (∀ groups, loadRelated β store context parents = .ok groups →
        List.Forall₂ (store.Gives context List.Perm children parents) parents groups) ∧
      ((∃ nested : List (List (β × List γ)),
          loadNested β γ store context parents = .ok nested) ↔
        ∃ groups, loadRelated β store context parents = .ok groups ∧
          ∃ far, loadRelated γ store context groups.flatten = .ok far) ∧
      (∀ nested, loadNested β γ store context parents = .ok nested →
        ∃ groups, loadRelated β store context parents = .ok groups ∧
          List.Forall₂ (fun group pairs => pairs.map Prod.fst = group ∧ ∀ pair ∈ pairs,
              store.GivesAlone context grandchildren pair.1 pair.2)
            groups nested) ∧
      ∀ through, loadRelatedThrough β γ store context parents = .ok through ↔
        ∃ nested, loadNested β γ store context parents = .ok nested ∧
          through = nested.map (fun pairs => (pairs.map Prod.snd).flatten) := by
  refine ⟨?_, ?_, ?_, ?_, ?_⟩
  · by_cases none_ : parents = []
    · subst none_
      exact ⟨fun _ => Or.inl rfl, fun _ => ⟨[], rfl⟩⟩
    · simp only [loadRelated_eq_ok_iff none_, none_, false_or]
      constructor
      · rintro ⟨_, keys, found, isKeys, isRead, hold, _⟩
        exact ⟨_, found, relatedFilter_eq_ok_iff.mpr ⟨keys, isKeys, rfl⟩, isRead, hold⟩
      · rintro ⟨filter, found, isFilter, isRead, hold⟩
        obtain ⟨keys, isKeys, rfl⟩ := relatedFilter_eq_ok_iff.mp isFilter
        exact ⟨_, keys, found, isKeys, isRead, hold, rfl⟩
  · exact fun groups loaded => forall₂_loadRelated
      (fun _ _ alike kept => alike.filter kept) answers answers loaded
  · constructor
    · rintro ⟨nested, loaded⟩
      obtain ⟨groups, far, isGroups, isFar, _⟩ := loadNested_eq_ok_iff.mp loaded
      exact ⟨groups, isGroups, far, isFar⟩
    · rintro ⟨groups, isGroups, far, isFar⟩
      exact ⟨_, loadNested_eq_ok_iff.mpr ⟨groups, far, isGroups, isFar, rfl⟩⟩
  · intro nested loaded
    obtain ⟨groups, far, isGroups, isFar, rfl⟩ := loadNested_eq_ok_iff.mp loaded
    exact ⟨groups, isGroups, forall₂_regroup (forall₂_givesAlone answersNested isFar)⟩
  · intro through
    rw [loadRelatedThrough]
    constructor
    · intro loaded
      obtain ⟨nested, isNested, same⟩ := bind_eq_ok.mp loaded
      cases same
      exact ⟨nested, isNested, rfl⟩
    · rintro ⟨nested, isNested, rfl⟩
      exact bind_eq_ok.mpr ⟨nested, isNested, rfl⟩

end

/-! ## Poems of shared and of unknown poets -/

section

local instance eagerPlatform : Platform := asciiPlatform

local instance poemRecord : Record Row where
  table := poems .asc
  toRow row := row
  fromRow row := .ok row

local instance : LawfulRecord Row where
  fromRow_toRow _ := rfl

local instance poemsOfPoem : Related Row Row where
  localColumn := 0
  foreignColumn := 0

/-- A store of some rows, which everyone sees. -/
def shelf (rows : List Row) : Records where
  findRecords := fun α [Record α] _ filter _ =>
    (rows.filter filter.admits).mapM (fun row => liftRecord (Record.fromRow row))

theorem answers_shelf
    (rows : List Row) :
    (shelf rows).Answers .superuser List.Perm rows := by
  intro column values children isRead
  have kept : List.Forall₂ Eq (rows.filter (Expr.in column values).admits)
      children :=
    (mapM_ok_iff.mp isRead).imp fun _ _ decoded => Except.ok.inj decoded
  rw [forall₂_eq_eq_eq] at kept
  subst kept
  exact List.Perm.refl _

/-- Two parents share a child, whose own child is itself, and a null has none. -/
theorem eagerLoading_exact_shared :
    let store := shelf [⟨[.u64 1]⟩, ⟨[.null]⟩]
    let held : List Row := [⟨[.u64 1]⟩, ⟨[.null]⟩]
    let parents : List Row := [⟨[.u64 1]⟩, ⟨[.null]⟩, ⟨[.u64 1]⟩]
    let groups : List (List Row) := [[⟨[.u64 1]⟩], [], [⟨[.u64 1]⟩]]
    let nested := groups.map (fun group => group.map (fun child => (child, [child])))
    List.Forall₂ (store.Gives .superuser List.Perm held parents) parents groups ∧
      (∃ groups, loadRelated Row store .superuser parents = .ok groups ∧
        List.Forall₂ (fun group pairs => pairs.map Prod.fst = group ∧ ∀ pair ∈ pairs,
            store.GivesAlone .superuser held pair.1 pair.2) groups nested) ∧
      loadRelatedThrough Row Row store .superuser parents = .ok groups := by
  intro store held parents groups nested
  have answers := answers_shelf held
  obtain ⟨-, related, -, loads, through⟩ :=
    @eagerLoading_exact _ Row Row Row _ _ _ _ _ _ _ _ _ _ answers _ answers parents
  exact ⟨related groups rfl, loads nested rfl, (through groups).mpr ⟨nested, rfl, rfl⟩⟩

end

end SlateOrm
