import Mathlib.Data.List.Induction

namespace SlateOrm

/-!
# Lifetimes

Things under keys are written and erased at moments in time.  A thing lives from
the write that finds its key free to the next erasure of the key; the writes in
between change it and do not begin another life.
-/

/-- What happens to a thing under a key. -/
inductive LifeEvent (Key Time : Type) where
  | wrote (key : Key) (time : Time)
  | erased (key : Key)
  deriving DecidableEq

/-- When a thing was first written, and when last. -/
structure Lifetime (Time : Type) where
  created : Time
  updated : Time

variable
  {Key Time : Type}
  [DecidableEq Key]

/-- The life of a thing after an event. -/
def LifeEvent.after (key : Key) (life : Option (Lifetime Time)) :
    LifeEvent Key Time → Option (Lifetime Time)
  | wrote written time =>
      if written = key then
        some ⟨(life.map Lifetime.created).getD time, time⟩
      else
        life
  | erased gone => if gone = key then none else life

/-- The life of what is under a key after some events. -/
def lifetime (events : List (LifeEvent Key Time)) (key : Key) :
    Option (Lifetime Time) :=
  events.foldl (LifeEvent.after key) none

theorem lifetime_append_singleton
    (events : List (LifeEvent Key Time)) (event : LifeEvent Key Time)
    (key : Key) :
    lifetime (events ++ [event]) key = event.after key (lifetime events key) := by
  rw [lifetime, List.foldl_append]
  rfl

namespace LifeEvent

variable {life : Option (Lifetime Time)}

theorem after_of_ne
    {key : Key} {event : LifeEvent Key Time}
    (written : ∀ time, event ≠ wrote key time)
    (erases : event ≠ erased key) :
    event.after key life = life := by
  cases event with
  | wrote other time =>
      rw [after, if_neg]
      rintro rfl
      exact written time rfl
  | erased other =>
      rw [after, if_neg]
      rintro rfl
      exact erases rfl

theorem created_after_wrote
    {key : Key} {held : Lifetime Time}
    (lives : life = some held)
    (written : Key) (time : Time) :
    ∃ held', (wrote written time).after key life = some held' ∧
      held'.created = held.created := by
  subst lives
  rw [after]
  split
  · exact ⟨_, rfl, rfl⟩
  · exact ⟨held, rfl, rfl⟩

end LifeEvent

/--
Something has been under a key since a moment at which the key was free, and was
last written at another.
-/
structure LivesSince (events : List (LifeEvent Key Time)) (key : Key)
    (life : Lifetime Time) : Prop where
  created : ∃ earlier later, events = earlier ++ .wrote key life.created :: later ∧
      lifetime earlier key = none ∧ .erased key ∉ later
  updated : ∃ earlier later, events = earlier ++ .wrote key life.updated :: later ∧
      .erased key ∉ later ∧ ∀ time, .wrote key time ∉ later

/-- A life began when its key was free, and the key was not erased since. -/
theorem livesSince_of_lifetime
    {events : List (LifeEvent Key Time)} {key : Key} {life : Lifetime Time}
    (lives : lifetime events key = some life) :
    LivesSince events key life := by
  induction events using List.reverseRecOn generalizing life with
  | nil => cases lives
  | append_singleton events event ih =>
      rw [lifetime_append_singleton] at lives
      by_cases erases : event = .erased key
      · subst erases
        rw [LifeEvent.after, if_pos rfl] at lives
        cases lives
      by_cases written : ∃ time, event = .wrote key time
      · obtain ⟨time, rfl⟩ := written
        have last : ∃ earlier later, events ++ [.wrote key time] =
                earlier ++ .wrote key time :: later ∧
              .erased key ∉ later ∧ ∀ other, .wrote key other ∉ later :=
          ⟨events, [], rfl, List.not_mem_nil, fun _ => List.not_mem_nil⟩
        cases before : lifetime events key with
        | none =>
            rw [before, LifeEvent.after, if_pos rfl] at lives
            cases lives
            exact ⟨⟨events, [], rfl, before, List.not_mem_nil⟩, last⟩
        | some held =>
            rw [before, LifeEvent.after, if_pos rfl] at lives
            cases lives
            obtain ⟨earlier, later, parts, free, kept⟩ := (ih before).created
            refine ⟨⟨earlier, later ++ [.wrote key time], ?_, free, ?_⟩, last⟩
            · rw [parts, List.append_assoc]
              rfl
            · simpa using kept
      · have otherKey : ∀ time, event ≠ .wrote key time :=
          fun time isWrite => written ⟨time, isWrite⟩
        rw [LifeEvent.after_of_ne otherKey erases] at lives
        obtain ⟨⟨earlier, later, parts, free, kept⟩, ⟨earlier', later', parts',
          kept', last⟩⟩ := ih lives
        refine ⟨⟨earlier, later ++ [event], ?_, free, ?_⟩,
          ⟨earlier', later' ++ [event], ?_, ?_, ?_⟩⟩
        · rw [parts, List.append_assoc]
          rfl
        · simpa using ⟨kept, Ne.symm erases⟩
        · rw [parts', List.append_assoc]
          rfl
        · simpa using ⟨kept', Ne.symm erases⟩
        · intro time
          simpa using ⟨last time, (otherKey time).symm⟩

end SlateOrm
