import Mathlib.Logic.Basic

namespace SlateOrm

/-!
# Stores with derived entries

A record is kept under its home key, and entries derived from it are kept under
other keys of the same store.  A store is consistent when it holds exactly the
records' bodies and the entries derived from them.  Replacing or erasing a
record with its entries keeps a store consistent, and so does carrying out the
writes of one transaction over what others have committed meanwhile.
-/

/-- Where records and the entries derived from them are kept. -/
structure Layout (Record Key Value : Type) where
  home : Record → Key
  body : Record → Value
  derived : Record → Key → Value → Prop
  /-- No entry is kept where a record is. -/
  apart : ∀ record other value, ¬derived record (home other) value
  /-- An entry says which record it is of. -/
  owner : ∀ first second key value, derived first key value → derived second key value →
      home first = home second
  /-- The entries of a record follow from where and how it is kept. -/
  determined : ∀ first second key value,
    home first = home second → body first = body second →
      derived first key value → derived second key value

namespace Layout

variable
  {Record Key Value : Type}
  (layout : Layout Record Key Value)

/-- Everything that is kept of a record. -/
def Image (record : Record) (key : Key) (value : Value) : Prop :=
  (key = layout.home record ∧ value = layout.body record) ∨
    layout.derived record key value

/-- A record that a store keeps. -/
def Stored (store : Key → Option Value) (record : Record) : Prop :=
  store (layout.home record) = some (layout.body record)

/-- A store keeps what its records are kept as, and nothing else. -/
def Consistent (store : Key → Option Value) : Prop := ∀ key value,
    store key = some value ↔
      ∃ record, layout.Stored store record ∧ layout.Image record key value

/-- Everything that a store keeps is kept of some record of a kind. -/
def Comprises (kind : Record → Prop) (store : Key → Option Value) : Prop :=
  ∀ key value, store key = some value →
    ∃ record, kind record ∧ layout.Image record key value

theorem consistent_empty :
    layout.Consistent (fun _ => none) := by
  intro key value
  constructor
  · intro bound
    cases bound
  · rintro ⟨record, stored, _⟩
    cases stored

variable
  {layout}
  {store : Key → Option Value}

theorem image_of_body
    {first second : Record} {key : Key} {value : Value}
    (sameHome : layout.home first = layout.home second)
    (sameBody : layout.body first = layout.body second)
    (image : layout.Image first key value) :
    layout.Image second key value := by
  rcases image with ⟨isHome, isBody⟩ | entry
  · exact Or.inl ⟨isHome.trans sameHome, isBody.trans sameBody⟩
  · exact Or.inr (layout.determined _ _ _ _ sameHome sameBody entry)

theorem home_of_image
    {first second : Record} {key : Key} {value : Value}
    (image : layout.Image first key value)
    (image' : layout.Image second key value) :
    layout.home first = layout.home second := by
  rcases image with ⟨isHome, _⟩ | entry
  · rcases image' with ⟨isHome', _⟩ | entry'
    · exact isHome.symm.trans isHome'
    · rw [isHome] at entry'
      exact absurd entry' (layout.apart _ _ _)
  · rcases image' with ⟨isHome', _⟩ | entry'
    · rw [isHome'] at entry
      exact absurd entry (layout.apart _ _ _)
    · exact layout.owner _ _ _ _ entry entry'

theorem Stored.body_eq
    {first second : Record} (stored : layout.Stored store first)
    (stored' : layout.Stored store second)
    (sameHome : layout.home first = layout.home second) :
    layout.body first = layout.body second := by
  have bound : store (layout.home first) = some (layout.body first) := stored
  rw [sameHome] at bound
  exact Option.some.inj (bound.symm.trans stored')

namespace Consistent

theorem comprises
    (consistent : layout.Consistent store) :
    layout.Comprises (layout.Stored store) store :=
  fun key value => (consistent key value).mp

theorem lookup
    (consistent : layout.Consistent store)
    {record : Record} {key : Key} {value : Value}
    (stored : layout.Stored store record)
    (image : layout.Image record key value) :
    store key = some value :=
  (consistent key value).mpr ⟨record, stored, image⟩

theorem home_unique
    (consistent : layout.Consistent store)
    {first second : Record} {key : Key} {value value' : Value}
    (stored : layout.Stored store first) (stored' : layout.Stored store second)
    (image : layout.Image first key value)
    (image' : layout.Image second key value') :
    layout.home first = layout.home second := by
  have bound := consistent.lookup stored image
  rw [consistent.lookup stored' image'] at bound
  obtain rfl := Option.some.inj bound
  exact home_of_image image image'

/-! ## Replacing and erasing a record -/

/--
Replacing a record with its entries keeps a store consistent, when no other
record has an entry under a key that the new one takes.
-/
theorem replace
    (consistent : layout.Consistent store)
    {after : Key → Option Value} {new : Record} {previous : Option Record}
    (replaced : ∀ old, previous = some old →
      layout.Stored store old ∧ layout.home old = layout.home new)
    (fresh : previous = none → store (layout.home new) = none)
    (free : ∀ record key value value',
      layout.Stored store record → layout.derived record key value' →
      layout.derived new key value →
      layout.home record = layout.home new)
    (written : ∀ key value, layout.Image new key value → after key = some value)
    (removed : ∀ old key value, previous = some old → layout.derived old key value →
      (∀ value', ¬layout.Image new key value') → after key = none)
    (kept : ∀ key, (∀ value, ¬layout.Image new key value) →
      (∀ old value, previous = some old → ¬layout.derived old key value) →
      after key = store key) :
    layout.Consistent after := by
  have newStored : layout.Stored after new := written _ _ (Or.inl ⟨rfl, rfl⟩)
  -- The home of another record is kept as it is.
  have homeKept : ∀ record, layout.home record ≠ layout.home new →
      after (layout.home record) = store (layout.home record) := by
    intro record other
    apply kept
    · rintro value (⟨isHome, _⟩ | entry)
      · exact other isHome
      · exact layout.apart _ _ _ entry
    · intro old value _ entry
      exact layout.apart _ _ _ entry
  intro key value
  constructor
  · intro bound
    by_cases inNew : ∃ value', layout.Image new key value'
    · obtain ⟨value', image⟩ := inNew
      rw [written key value' image] at bound
      obtain rfl := Option.some.inj bound
      exact ⟨new, newStored, image⟩
    · have notNew : ∀ value', ¬layout.Image new key value' :=
        fun value' image => inNew ⟨value', image⟩
      have notOld : ∀ old value', previous = some old →
          ¬layout.derived old key value' := by
        intro old value' isPrevious entry
        rw [removed old key value' isPrevious entry notNew] at bound
        cases bound
      rw [kept key notNew notOld] at bound
      obtain ⟨record, stored, image⟩ := (consistent key value).mp bound
      by_cases sameHome : layout.home record = layout.home new
      · exfalso
        cases isPrevious : previous with
        | none =>
            have absent := fresh isPrevious
            rw [← sameHome] at absent
            rw [Stored, absent] at stored
            cases stored
        | some old =>
            obtain ⟨oldStored, oldHome⟩ := replaced old isPrevious
            have oneHome : layout.home record = layout.home old :=
              sameHome.trans oldHome.symm
            rcases image_of_body oneHome (stored.body_eq oldStored oneHome) image with
              ⟨isHome, _⟩ | entry
            · exact notNew _ (Or.inl ⟨isHome.trans oldHome, rfl⟩)
            · exact notOld old value isPrevious entry
      · exact ⟨record, (homeKept record sameHome).trans stored, image⟩
  · rintro ⟨record, stored, image⟩
    by_cases sameHome : layout.home record = layout.home new
    · exact written key value (image_of_body sameHome
        (stored.body_eq newStored sameHome) image)
    · rw [Stored, homeKept record sameHome] at stored
      have bound := consistent.lookup stored image
      rw [← bound]
      apply kept
      · rintro value' (⟨isHome, _⟩ | entry)
        · rcases image with ⟨isHome', _⟩ | entry'
          · exact sameHome (isHome'.symm.trans isHome)
          · rw [isHome] at entry'
            exact layout.apart _ _ _ entry'
        · rcases image with ⟨isHome', _⟩ | entry'
          · rw [isHome'] at entry
            exact layout.apart _ _ _ entry
          · exact sameHome (free record key value' value stored entry' entry)
      · intro old value' isPrevious entry
        obtain ⟨oldStored, oldHome⟩ := replaced old isPrevious
        exact sameHome ((consistent.home_unique stored oldStored image
          (Or.inr entry)).trans oldHome)

/-- Erasing a record with its entries keeps a store consistent. -/
theorem erase
    (consistent : layout.Consistent store)
    {after : Key → Option Value} {old : Record}
    (oldStored : layout.Stored store old)
    (removed : ∀ key value, layout.Image old key value → after key = none)
    (kept : ∀ key, (∀ value, ¬layout.Image old key value) → after key = store key) :
    layout.Consistent after := by
  have homeKept : ∀ record, layout.home record ≠ layout.home old →
      after (layout.home record) = store (layout.home record) := by
    intro record other
    apply kept
    rintro value (⟨isHome, _⟩ | entry)
    · exact other isHome
    · exact layout.apart _ _ _ entry
  have homeRemoved : ∀ record, layout.Stored after record →
      layout.home record ≠ layout.home old := by
    intro record stored sameHome
    have absent := removed _ _ (Or.inl ⟨rfl, rfl⟩)
    rw [← sameHome] at absent
    rw [Stored, absent] at stored
    cases stored
  intro key value
  constructor
  · intro bound
    have notOld : ∀ value', ¬layout.Image old key value' := by
      intro value' image
      rw [removed key value' image] at bound
      cases bound
    rw [kept key notOld] at bound
    obtain ⟨record, stored, image⟩ := (consistent key value).mp bound
    have other : layout.home record ≠ layout.home old := by
      intro sameHome
      exact notOld value (image_of_body sameHome
        (stored.body_eq oldStored sameHome) image)
    exact ⟨record, (homeKept record other).trans stored, image⟩
  · rintro ⟨record, stored, image⟩
    have other := homeRemoved record stored
    rw [Stored, homeKept record other] at stored
    have bound := consistent.lookup stored image
    rw [← bound]
    apply kept
    intro value' image'
    exact other (consistent.home_unique stored oldStored image image')

/-! ## Committing over other commits -/

section

variable {first began second : Key → Option Value} {record : Record}
  {key : Key} {value : Value}

theorem carried
    (beganConsistent : layout.Consistent began)
    (consistent : layout.Consistent second)
    (stored : layout.Stored first record)
    (image : layout.Image record key value)
    (home : first (layout.home record) = began (layout.home record))
    (agrees : second key = began key) :
    ∃ current, layout.Stored second current ∧ layout.Image current key value ∧
        layout.home current = layout.home record := by
  rw [Stored, home] at stored
  have earlier := beganConsistent.lookup stored image
  rw [← agrees] at earlier
  obtain ⟨current, isStored, isImage⟩ := (consistent key value).mp earlier
  exact ⟨current, isStored, isImage, home_of_image isImage image⟩

theorem lookup_carried
    (firstConsistent : layout.Consistent first)
    (beganConsistent : layout.Consistent began)
    (consistent : layout.Consistent second)
    (stored : layout.Stored first record)
    (image : layout.Image record key value)
    (untouched : first key = began key)
    (home : second (layout.home record) = began (layout.home record)) :
    second key = some value := by
  have bound := firstConsistent.lookup stored image
  rw [untouched] at bound
  obtain ⟨earlier, isStored, isImage⟩ := (beganConsistent key value).mp bound
  rw [← home_of_image isImage image] at home
  rw [Stored, ← home] at isStored
  exact consistent.lookup isStored isImage

end

/--
The writes of a transaction that left its own view consistent keep the store
consistent over which it commits, when that store agrees on every written key
with the one the transaction began with.
-/
theorem merge
    {began view merged : Key → Option Value} {written : Key → Prop}
    (consistent : layout.Consistent store)
    (beganConsistent : layout.Consistent began)
    (viewConsistent : layout.Consistent view)
    (untouched : ∀ key, ¬written key → view key = began key)
    (agrees : ∀ key, written key → store key = began key)
    (fromView : ∀ key, written key → merged key = view key)
    (fromStore : ∀ key, ¬written key → merged key = store key) :
    layout.Consistent merged := by
  intro key value
  constructor
  · intro bound
    by_cases isWritten : written key
    · rw [fromView key isWritten] at bound
      obtain ⟨record, stored, image⟩ := (viewConsistent key value).mp bound
      by_cases homeWritten : written (layout.home record)
      · exact ⟨record, (fromView _ homeWritten).trans stored, image⟩
      · -- The record was there from the beginning, and so was the key.
        obtain ⟨current, isStored, isImage, sameHome⟩ := carried beganConsistent
          consistent stored image (untouched _ homeWritten) (agrees key isWritten)
        rw [← sameHome] at homeWritten
        exact ⟨current, (fromStore _ homeWritten).trans isStored, isImage⟩
    · rw [fromStore key isWritten] at bound
      obtain ⟨record, stored, image⟩ := (consistent key value).mp bound
      by_cases homeWritten : written (layout.home record)
      · obtain ⟨current, isStored, isImage, sameHome⟩ := carried beganConsistent
          viewConsistent stored image (agrees _ homeWritten) (untouched key isWritten)
        rw [← sameHome] at homeWritten
        exact ⟨current, (fromView _ homeWritten).trans isStored, isImage⟩
      · exact ⟨record, (fromStore _ homeWritten).trans stored, image⟩
  · rintro ⟨record, stored, image⟩
    by_cases homeWritten : written (layout.home record)
    · rw [Stored, fromView _ homeWritten] at stored
      by_cases isWritten : written key
      · exact (fromView key isWritten).trans (viewConsistent.lookup stored image)
      · rw [fromStore key isWritten]
        exact lookup_carried viewConsistent beganConsistent consistent stored
          image (untouched key isWritten) (agrees _ homeWritten)
    · rw [Stored, fromStore _ homeWritten] at stored
      by_cases isWritten : written key
      · rw [fromView key isWritten]
        exact lookup_carried consistent beganConsistent viewConsistent stored
          image (agrees key isWritten) (untouched _ homeWritten)
      · exact (fromStore key isWritten).trans (consistent.lookup stored image)

end Consistent

end Layout

end SlateOrm
