import Mathlib.Data.Finset.Card
import Mathlib.Data.Finset.Dedup
import Mathlib.Data.List.Perm.Basic
import SlateOrm.BoundedHeap

namespace SlateOrm

open List

/-!
# Folds by key

Items are folded into one state for each of their keys, and are refused when
there would be too many keys.  The state of a key is the fold of its items
alone, in their order, and items are refused in one order exactly when they are
in another, if the folds are.
-/

/-! ## Folds that may fail -/

section

variable {α σ ε : Type}

section

variable
  {step : σ → α → Except ε σ}

theorem foldlM_append_ok
    {first second : List α} {state result : σ} :
    (first ++ second).foldlM step state = .ok result ↔
      ∃ between, first.foldlM step state = .ok between ∧
        second.foldlM step between = .ok result := by
  rw [foldlM_append]
  cases first.foldlM step state with
  | error failure =>
      constructor
      · nofun
      · rintro ⟨_, ⟨⟩, _⟩
  | ok between =>
      constructor
      · exact fun folded => ⟨between, rfl, folded⟩
      · rintro ⟨_, ⟨⟩, folded⟩
        exact folded

theorem foldlM_cons_ok
    {item : α} {rest : List α} {state result : σ} :
    (item :: rest).foldlM step state = .ok result ↔ ∃ next, step state item = .ok next ∧
        rest.foldlM step next = .ok result := by
  rw [foldlM_cons]
  cases step state item with
  | error failure =>
      constructor
      · nofun
      · rintro ⟨_, ⟨⟩, _⟩
  | ok next =>
      constructor
      · exact fun folded => ⟨next, rfl, folded⟩
      · rintro ⟨_, ⟨⟩, folded⟩
        exact folded

theorem foldlM_keeps
    {holds : σ → Prop} {items : List α}
    (keeps : ∀ item ∈ items, ∀ state next, holds state →
      step state item = .ok next → holds next)
    {state result : σ} (held : holds state)
    (folded : items.foldlM step state = .ok result) :
    holds result := by
  induction items generalizing state with
  | nil =>
      cases folded
      exact held
  | cons item rest ih =>
      obtain ⟨next, stepped, folded⟩ := foldlM_cons_ok.mp folded
      exact ih (fun other isOther => keeps other (mem_cons_of_mem _ isOther))
        (keeps item mem_cons_self state next held stepped) folded

/-- A fold that may fail keeps what each step keeps, and under that what each
step leaves reached. -/
theorem foldlM_carries
    {holds goal : σ → Prop} {items : List α}
    (keeps : ∀ item ∈ items, ∀ state next, holds state →
      step state item = .ok next → holds next ∧ (goal state → goal next))
    {state result : σ} (held : holds state)
    (folded : items.foldlM step state = .ok result) :
    holds result ∧ (goal state → goal result) := by
  refine ⟨foldlM_keeps (fun item isIn state next held stepped =>
    (keeps item isIn state next held stepped).1) held folded, ?_⟩
  intro reached
  refine (@foldlM_keeps _ _ _ _ (fun state => holds state ∧ goal state) _ ?_
    _ _ ⟨held, reached⟩ folded).2
  intro item isIn state next both stepped
  obtain ⟨heldNext, stays⟩ := keeps item isIn state next both.1 stepped
  exact ⟨heldNext, stays both.2⟩

theorem foldlM_establishes
    {holds goal : σ → Prop} {items : List α}
    (keeps : ∀ item ∈ items, ∀ state next, holds state →
      step state item = .ok next → holds next ∧ (goal state → goal next))
    {item : α}
    (member : item ∈ items)
    (makes : ∀ state next, holds state → step state item = .ok next → goal next)
    {state result : σ} (held : holds state)
    (folded : items.foldlM step state = .ok result) :
    goal result := by
  obtain ⟨earlier, later, rfl⟩ := append_of_mem member
  obtain ⟨between, before, folded⟩ := foldlM_append_ok.mp folded
  obtain ⟨next, stepped, after⟩ := foldlM_cons_ok.mp folded
  have heldBetween := (foldlM_carries
    (fun other isOther => keeps other (by simp [isOther])) held before).1
  have heldNext := (keeps item (by simp) between next heldBetween stepped).1
  exact (foldlM_carries (fun other isOther => keeps other (by simp [isOther]))
    heldNext after).2 (makes between next heldBetween stepped)

theorem exists_foldlM_of_steps
    {accepts : α → Prop} {items : List α}
    (steps : ∀ item ∈ items, ∀ state,
      (∃ next, step state item = .ok next) ↔ accepts item)
    (state : σ) :
    (∃ result, items.foldlM step state = .ok result) ↔
      ∀ item ∈ items, accepts item := by
  induction items generalizing state with
  | nil => exact ⟨fun _ => nofun, fun _ => ⟨state, rfl⟩⟩
  | cons item rest ih =>
      have first := steps item mem_cons_self state
      have others := ih (fun other isOther => steps other (mem_cons_of_mem _ isOther))
      simp only [foldlM_cons_ok, forall_mem_cons, ← first]
      constructor
      · rintro ⟨result, next, stepped, folded⟩
        exact ⟨⟨next, stepped⟩, (others next).mp ⟨result, folded⟩⟩
      · rintro ⟨⟨next, stepped⟩, accepted⟩
        obtain ⟨result, folded⟩ := (others next).mpr accepted
        exact ⟨result, next, stepped, folded⟩

end

/-- Functions that may fail succeed on a list when they do on each element. -/
theorem mapM_ok_iff
    {β : Type} {function : α → Except ε β} {items : List α} {results : List β} :
    items.mapM function = .ok results ↔
      List.Forall₂ (fun item result => function item = .ok result) items
        results := by
  induction items generalizing results with
  | nil =>
      rw [mapM_nil, forall₂_nil_left_iff]
      constructor
      · rintro ⟨⟩
        rfl
      · rintro rfl
        rfl
  | cons item rest ih =>
      rw [mapM_cons, forall₂_cons_left_iff]
      constructor
      · intro mapped
        cases isFirst : function item with
        | error failure =>
            rw [isFirst] at mapped
            cases mapped
        | ok first =>
            cases isRest : rest.mapM function with
            | error failure =>
                rw [isFirst, isRest] at mapped
                cases mapped
            | ok others =>
                rw [isFirst, isRest] at mapped
                cases mapped
                exact ⟨first, others, rfl, ih.mp isRest, rfl⟩
      · rintro ⟨first, others, isFirst, isRest, rfl⟩
        rw [isFirst, ih.mpr isRest]
        rfl

end

namespace KeyedFolds

variable {α κ σ ε : Type} [DecidableEq κ]

/-- The state under a key. -/
def lookup (key : κ) : List (κ × σ) → Option σ
  | [] => none
  | (other, state) :: rest => if other = key then some state else lookup key rest

/-- Put a state in place of the one under a key. -/
def replace (key : κ) (state : σ) (entries : List (κ × σ)) : List (κ × σ) :=
  entries.map (fun entry => if entry.1 = key then (key, state) else entry)

/-- Fold an item into the state of its key, or into a new one. -/
def push (limit : Nat) (refusal : ε) (key : α → κ) (start : α → σ)
    (step : σ → α → Except ε σ) (entries : List (κ × σ)) (item : α) :
    Except ε (List (κ × σ)) :=
  match lookup (key item) entries with
  | some state =>
      match step state item with
      | .ok next => .ok (replace (key item) next entries)
      | .error failure => .error failure
  | none =>
      if limit ≤ entries.length then
        .error refusal
      else
        match step (start item) item with
        | .ok next => .ok (entries ++ [(key item, next)])
        | .error failure => .error failure

/-! ## Entries -/

section

variable
  {key : κ}
  {state : σ}
  {entries : List (κ × σ)}

theorem mem_of_lookup
    (found : lookup key entries = some state) :
    (key, state) ∈ entries := by
  induction entries with
  | nil => cases found
  | cons entry rest ih =>
      rw [lookup] at found
      split at found
      · next isKey =>
          cases found
          subst isKey
          exact mem_cons_self ..
      · exact mem_cons_of_mem _ (ih found)

theorem lookup_eq_none_iff :
    lookup key entries = none ↔ key ∉ entries.map Prod.fst := by
  induction entries with
  | nil => simp [lookup]
  | cons entry rest ih =>
      rw [lookup]
      split
      · next isKey => simp [isKey]
      · next isOther => simp [ih, Ne.symm isOther]

@[simp] theorem map_fst_replace :
    (replace key state entries).map Prod.fst = entries.map Prod.fst := by
  rw [replace, map_map]
  refine map_congr_left (fun entry _ => ?_)
  rw [Function.comp_apply]
  split
  · next isKey => exact isKey.symm
  · rfl

@[simp] theorem length_replace :
    (replace key state entries).length = entries.length := by
  rw [replace, length_map]

theorem mem_replace
    {other : κ} {next : σ}
    (member : (other, next) ∈ replace key state entries) :
    (other = key ∧ next = state) ∨ (other ≠ key ∧ (other, next) ∈ entries) := by
  obtain ⟨entry, isEntry, same⟩ := mem_map.mp member
  split at same
  · cases same
    exact Or.inl ⟨rfl, rfl⟩
  · next isOther =>
      subst same
      exact Or.inr ⟨isOther, isEntry⟩

end

/-! ## Classes -/

section

variable
  (limit : Nat)
  (refusal : ε)
  (key : α → κ)
  (start : α → σ)
  (step : σ → α → Except ε σ)

/-- The items of one key. -/
def classOf (items : List α) (wanted : κ) : List α :=
  items.filter (fun item => key item = wanted)

/-- What the items of one key are folded to, from the first of them on. -/
def FoldsTo : List α → σ → Prop
  | [], _ => False
  | first :: rest, state => (first :: rest).foldlM step (start first) = .ok state

/-- Entries hold the fold of each class of the items. -/
structure Partitions (items : List α) (entries : List (κ × σ)) : Prop where
  nodup : (entries.map Prod.fst).Nodup
  keys : ∀ wanted, wanted ∈ entries.map Prod.fst ↔ wanted ∈ items.map key
  folds : ∀ wanted state, (wanted, state) ∈ entries →
    FoldsTo start step (classOf key items wanted) state

variable
  {limit refusal key start step}
  {items : List α}
  {entries entries' : List (κ × σ)}

theorem foldsTo_append_singleton
    {state next : σ} {item : α} (folds : FoldsTo start step items state) :
    FoldsTo start step (items ++ [item]) next ↔ step state item = .ok next := by
  cases items with
  | nil => exact folds.elim
  | cons first rest =>
      rw [FoldsTo] at folds
      rw [cons_append, FoldsTo, ← cons_append, foldlM_append_ok]
      simp only [folds, Except.ok.injEq, exists_eq_left', foldlM_cons_ok, foldlM_nil]
      constructor
      · rintro ⟨_, stepped, ⟨⟩⟩
        exact stepped
      · exact fun stepped => ⟨next, stepped, rfl⟩

theorem classOf_append
    (others : List α) (wanted : κ) :
    classOf key (items ++ others) wanted =
      classOf key items wanted ++ classOf key others wanted :=
  filter_append ..

theorem partitions_nil :
    Partitions key start step [] [] :=
  ⟨nodup_nil, fun _ => Iff.rfl, nofun⟩

theorem Partitions.length_eq
    (partitions : Partitions key start step items entries) :
    entries.length = (items.map key).toFinset.card := by
  have same : (entries.map Prod.fst).toFinset = (items.map key).toFinset := by
    ext wanted
    simpa only [mem_toFinset] using partitions.keys wanted
  rw [← same, toFinset_card_of_nodup partitions.nodup, length_map]

/-- Folding one more item keeps the classes folded. -/
theorem Partitions.append_item
    {item : α} (partitions : Partitions key start step items entries)
    (pushed : push limit refusal key start step entries item = .ok entries') :
    Partitions key start step (items ++ [item]) entries' := by
  have others {wanted : κ} {state : σ} (isOther : wanted ≠ key item)
      (member : (wanted, state) ∈ entries) :
      FoldsTo start step (classOf key (items ++ [item]) wanted) state := by
    have none_ : classOf key [item] wanted = [] := by
      simp [classOf, Ne.symm isOther]
    rw [classOf_append, none_, append_nil]
    exact partitions.folds wanted state member
  have one : classOf key [item] (key item) = [item] := by
    simp [classOf]
  rw [push] at pushed
  split at pushed
  · next state found =>
      have isEntry := mem_of_lookup found
      split at pushed
      · next next stepped =>
          cases pushed
          refine ⟨?_, ?_, ?_⟩
          · rw [map_fst_replace]
            exact partitions.nodup
          · intro wanted
            have inKeys := (partitions.keys (key item)).mp (mem_map_of_mem isEntry)
            rw [map_fst_replace, partitions.keys, map_append,
              mem_append, map_singleton, mem_singleton]
            constructor
            · exact Or.inl
            · rintro (member | rfl)
              · exact member
              · exact inKeys
          · intro wanted state' member
            rcases mem_replace member with ⟨rfl, rfl⟩ | ⟨isOther, member⟩
            · rw [classOf_append, one]
              exact (foldsTo_append_singleton
                (partitions.folds _ _ isEntry)).mpr stepped
            · exact others isOther member
      · cases pushed
  · next missing =>
      have isNew := lookup_eq_none_iff.mp missing
      split at pushed
      · cases pushed
      · split at pushed
        · next next stepped =>
            cases pushed
            refine ⟨?_, ?_, ?_⟩
            · rw [map_append, nodup_append]
              refine ⟨partitions.nodup, nodup_singleton _, ?_⟩
              intro wanted member other isItem same
              rw [map_singleton, mem_singleton] at isItem
              rw [same, isItem] at member
              exact isNew member
            · intro wanted
              simp only [map_append, mem_append, partitions.keys, map_singleton]
            · intro wanted state member
              rcases mem_append.mp member with member | member
              · refine others ?_ member
                rintro rfl
                exact isNew (mem_map_of_mem member)
              · cases mem_singleton.mp member
                have empty : classOf key items (key item) = [] := by
                  rw [classOf, filter_eq_nil_iff]
                  intro other isItem
                  have absent := (partitions.keys (key item)).not.mp isNew
                  simp only [decide_eq_true_eq]
                  rintro same
                  exact absent (mem_map.mpr ⟨other, isItem, same⟩)
                rw [classOf_append, one, empty, nil_append, FoldsTo, foldlM_cons_ok]
                exact ⟨next, stepped, rfl⟩
        · cases pushed

theorem Partitions.append_items
    {others : List α} (partitions : Partitions key start step items entries)
    (folded : others.foldlM (push limit refusal key start step) entries =
      .ok entries') :
    Partitions key start step (items ++ others) entries' := by
  induction others generalizing items entries with
  | nil =>
      cases folded
      rwa [append_nil]
  | cons item rest ih =>
      obtain ⟨between, pushed, folded⟩ := foldlM_cons_ok.mp folded
      have later := ih (partitions.append_item pushed) folded
      rwa [append_assoc, singleton_append] at later

theorem length_le_of_foldlM
    (folded : items.foldlM (push limit refusal key start step) entries = .ok entries')
    (short : entries.length ≤ limit) :
    entries'.length ≤ limit := by
  induction items generalizing entries with
  | nil =>
      cases folded
      exact short
  | cons item rest ih =>
      obtain ⟨between, pushed, folded⟩ := foldlM_cons_ok.mp folded
      refine ih folded ?_
      rw [push] at pushed
      split at pushed
      · split at pushed
        · cases pushed
          rwa [length_replace]
        · cases pushed
      · split at pushed
        · cases pushed
        · next isRoom =>
            split at pushed
            · cases pushed
              rw [length_append, length_singleton]
              exact Nat.lt_of_not_le isRoom
            · cases pushed

theorem exists_foldsTo_of_append
    {others : List α} {state : σ}
    (nonempty : items ≠ [])
    (folds : FoldsTo start step (items ++ others) state) :
    ∃ between, FoldsTo start step items between := by
  cases items with
  | nil => exact absurd rfl nonempty
  | cons first rest =>
      rw [cons_append, FoldsTo, ← cons_append] at folds
      obtain ⟨between, folded, -⟩ := foldlM_append_ok.mp folds
      exact ⟨between, folded⟩

/--
Items are folded by key exactly when there are not too many keys and each class
is folded on its own.
-/
theorem exists_foldlM_iff :
    (∃ entries, items.foldlM (push limit refusal key start step) [] = .ok entries) ↔
      (items.map key).toFinset.card ≤ limit ∧ ∀ item ∈ items, ∃ state,
          FoldsTo start step (classOf key items (key item)) state := by
  constructor
  · rintro ⟨entries, folded⟩
    have partitions := partitions_nil.append_items folded
    rw [nil_append] at partitions
    refine ⟨?_, ?_⟩
    · rw [← partitions.length_eq]
      exact length_le_of_foldlM folded (Nat.zero_le _)
    · intro item member
      obtain ⟨entry, isEntry, isKey⟩ := mem_map.mp
        ((partitions.keys (key item)).mpr (mem_map_of_mem member))
      exact ⟨entry.2, partitions.folds _ _ (isKey ▸ isEntry)⟩
  · rintro ⟨few, folds⟩
    -- Each beginning of the items is folded, by induction on what is left.
    suffices goesOn : ∀ (rest done : List α) (entries : List (κ × σ)),
        items = done ++ rest → Partitions key start step done entries →
          ∃ entries', rest.foldlM (push limit refusal key start step)
            entries = .ok entries' from
      goesOn items [] [] rfl partitions_nil
    intro rest
    induction rest with
    | nil => exact fun _ entries _ _ => ⟨entries, rfl⟩
    | cons item rest ih =>
        intro done entries isItems partitions
        have isSplit : items = (done ++ [item]) ++ rest := by
          rw [isItems, append_assoc, singleton_append]
        have inItems : item ∈ items := by
          rw [isItems]
          exact mem_append_right _ (mem_cons_self ..)
        have one : classOf key [item] (key item) = [item] := by
          simp [classOf]
        obtain ⟨state, whole⟩ := folds item inItems
        rw [isSplit, classOf_append] at whole
        obtain ⟨next, upTo⟩ := exists_foldsTo_of_append
          (by rw [classOf_append, one]; simp) whole
        rw [classOf_append, one] at upTo
        have pushed : ∃ entries',
            push limit refusal key start step entries item = .ok entries' := by
          rw [push]
          split
          · next state' found =>
              have stepped := (foldsTo_append_singleton
                (partitions.folds _ _ (mem_of_lookup found))).mp upTo
              rw [stepped]
              exact ⟨_, rfl⟩
          · next missing =>
              have isNew := lookup_eq_none_iff.mp missing
              have absent := (partitions.keys (key item)).not.mp isNew
              have empty : classOf key done (key item) = [] := by
                rw [classOf, filter_eq_nil_iff]
                intro other isItem
                simp only [decide_eq_true_eq]
                intro same
                exact absent (mem_map.mpr ⟨other, isItem, same⟩)
              have isRoom : ¬limit ≤ entries.length := by
                rw [partitions.length_eq, Nat.not_le]
                refine Nat.lt_of_lt_of_le (Finset.card_lt_card ?_) few
                rw [Finset.ssubset_iff_of_subset]
                · exact ⟨key item, mem_toFinset.mpr (mem_map_of_mem inItems),
                    fun member => absent (mem_toFinset.mp member)⟩
                · intro wanted member
                  rw [mem_toFinset] at member ⊢
                  rw [isItems, map_append]
                  exact mem_append_left _ member
              rw [if_neg isRoom]
              rw [empty, nil_append, FoldsTo, foldlM_cons_ok] at upTo
              obtain ⟨next', stepped, -⟩ := upTo
              rw [stepped]
              exact ⟨_, rfl⟩
        obtain ⟨entries', isPushed⟩ := pushed
        obtain ⟨last, folded⟩ := ih (done ++ [item]) entries'
          isSplit (partitions.append_item isPushed)
        exact ⟨last, foldlM_cons_ok.mpr ⟨entries', isPushed, folded⟩⟩

/-! ## Orders of the items -/

section

variable
  {items' : List α}
  {alike : σ → σ → Prop}

theorem classOf_perm
    (key : α → κ) (same : items.Perm items') (wanted : κ) :
    (classOf key items wanted).Perm (classOf key items' wanted) :=
  same.filter _

theorem exists_foldlM_perm
    (same : items.Perm items')
    (classes : ∀ wanted,
      (∃ state, FoldsTo start step (classOf key items wanted) state) ↔
        ∃ state, FoldsTo start step (classOf key items' wanted) state) :
    (∃ entries, items.foldlM (push limit refusal key start step) [] = .ok entries) ↔
      ∃ entries, items'.foldlM (push limit refusal key start step) [] =
        .ok entries := by
  have sameKeys : (items.map key).toFinset = (items'.map key).toFinset :=
    toFinset_eq_of_perm _ _ (same.map key)
  simp only [exists_foldlM_iff, sameKeys, classes, same.mem_iff]

/-- Entries that are sorted by their keys. -/
def sorted (cmp : κ → κ → Ordering) (entries : List (κ × σ)) : List (κ × σ) :=
  entries.mergeSort (fun first second => cmp first.1 second.1 ≠ .gt)

omit [DecidableEq κ] in
theorem forall₂_of_map_fst
    {first second : List (κ × σ)}
    (sameKeys : first.map Prod.fst = second.map Prod.fst)
    (areAlike : ∀ wanted state state', (wanted, state) ∈ first →
      (wanted, state') ∈ second → alike state state') :
    List.Forall₂ (fun entry entry' =>
      entry.1 = entry'.1 ∧ alike entry.2 entry'.2) first second := by
  induction first generalizing second with
  | nil =>
      rw [map_nil, nil_eq, map_eq_nil_iff] at sameKeys
      rw [sameKeys]
      exact List.Forall₂.nil
  | cons entry rest ih =>
      cases second with
      | nil => cases sameKeys
      | cons entry' rest' =>
          obtain ⟨isSame, sameRest⟩ := cons.inj sameKeys
          refine List.Forall₂.cons ⟨isSame, ?_⟩ (ih sameRest
            (fun wanted state state' member member' => areAlike wanted state
            state' (mem_cons_of_mem _ member) (mem_cons_of_mem _ member')))
          refine areAlike entry.1 entry.2 entry'.2 (mem_cons_self ..) ?_
          rw [isSame]
          exact mem_cons_self ..

/-- Items in another order are folded to alike entries, sorted by their keys. -/
theorem forall₂_sorted
    (cmp : κ → κ → Ordering) [Std.TransCmp cmp] [Std.LawfulEqCmp cmp]
    (same : items.Perm items')
    (classes : ∀ wanted state state',
      FoldsTo start step (classOf key items wanted) state →
        FoldsTo start step (classOf key items' wanted) state' → alike state state')
    (folded : items.foldlM (push limit refusal key start step) [] = .ok entries)
    (folded' : items'.foldlM (push limit refusal key start step) [] = .ok entries') :
    List.Forall₂ (fun entry entry' =>
      entry.1 = entry'.1 ∧ alike entry.2 entry'.2)
      (sorted cmp entries) (sorted cmp entries') := by
  have partitions := partitions_nil.append_items folded
  have partitions' := partitions_nil.append_items folded'
  rw [nil_append] at partitions partitions'
  have ordered : OrderedOn cmp (fun _ => True) := by
    refine ⟨fun first second _ _ => Std.OrientedCmp.eq_swap,
      fun first second third _ _ _ before after => ?_⟩
    exact Ordering.isLE_iff_ne_gt.mp (Std.TransCmp.isLE_trans
      (Ordering.isLE_iff_ne_gt.mpr before) (Ordering.isLE_iff_ne_gt.mpr after))
  have keysOf (some : List (κ × σ)) : (sorted cmp some).map Prod.fst =
      (some.map Prod.fst).mergeSort (fun first second => cmp first second ≠ .gt) :=
    map_mergeSort (fun _ _ _ _ => rfl)
  have samePerm : (entries.map Prod.fst).Perm (entries'.map Prod.fst) := by
    rw [perm_ext_iff_of_nodup partitions.nodup partitions'.nodup]
    intro wanted
    rw [partitions.keys, partitions'.keys]
    exact (same.map key).mem_iff
  have sortedPerm (some : List (κ × σ)) : ((some.map Prod.fst).mergeSort
        (fun first second => cmp first second ≠ .gt)).Perm (some.map Prod.fst) :=
    mergeSort_perm ..
  have sameKeys : (sorted cmp entries).map Prod.fst =
      (sorted cmp entries').map Prod.fst := by
    rw [keysOf, keysOf]
    refine ordered.eq_of_perm (fun _ _ => trivial)
      ((sortedPerm _).trans (samePerm.trans (sortedPerm _).symm))
      (ordered.pairwise_mergeSort (fun _ _ => trivial)) ?_
    have distinct := (sortedPerm entries').symm.nodup partitions'.nodup
    refine List.Pairwise.imp₂ (fun first second less differ => ?_)
      (ordered.pairwise_mergeSort (fun _ _ => trivial)) distinct
    cases isOrder : cmp first second with
    | lt => rfl
    | eq => exact absurd (Std.LawfulEqCmp.eq_of_compare isOrder) differ
    | gt => exact absurd isOrder less
  refine forall₂_of_map_fst sameKeys ?_
  intro wanted state state' member member'
  refine classes wanted state state' (partitions.folds _ _ ?_)
    (partitions'.folds _ _ ?_)
  · exact mem_mergeSort.mp member
  · exact mem_mergeSort.mp member'

end

end

end KeyedFolds

end SlateOrm
