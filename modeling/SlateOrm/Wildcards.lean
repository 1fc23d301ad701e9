import Mathlib.Computability.Language

namespace SlateOrm

open List Option

/-!
# Loops and wildcard patterns

A loop is a function of its state that gives the next state or an answer.  The
loop of this module matches a word against a pattern of wildcards: it remembers
the last wildcard that may stand for a run, and comes back to it, one symbol
further on, whenever the pattern after it fails.
-/

/-! ## Loops -/

variable {fuel : Nat}

namespace Loop

section

variable {σ τ β : Type}

/-- A loop that is in a state comes to an answer. -/
inductive Returns (step : σ → σ ⊕ β) : σ → β → Prop
  | ends {state : σ} {answer : β} : step state = .inr answer → Returns step state answer
  | goesOn {state next : σ} {answer : β} :
      step state = .inl next → Returns step next answer →
      Returns step state answer

/-- The answer of a loop, if it comes to one in a number of steps. -/
def run (step : σ → σ ⊕ β) : Nat → σ → Option β
  | 0, _ => none
  | fuel + 1, state =>
      match step state with
      | .inl next => run step fuel next
      | .inr answer => some answer

theorem returns_of_run
    {step : σ → σ ⊕ β} {state : σ} {answer : β}
    (ran : run step fuel state = some answer) :
    Returns step state answer := by
  induction fuel generalizing state with
  | zero => simp [run] at ran
  | succ fuel ih =>
      cases stepped : step state with
      | inl next =>
          simp only [run, stepped] at ran
          exact .goesOn stepped (ih ran)
      | inr last =>
          simp only [run, stepped, some.injEq] at ran
          subst ran
          exact .ends stepped

/--
A loop whose steps keep an invariant, make a measure smaller and do not change
what is right comes to the right answer in as many steps as the measure says.
-/
theorem exists_run
    {step : σ → σ ⊕ β} (invariant : σ → Prop) (right : σ → β → Prop)
    (measure : σ → Nat)
    (goesOn : ∀ state next, invariant state → step state = .inl next →
      invariant next ∧ measure next < measure state ∧
        ∀ answer, right next answer → right state answer)
    (ends : ∀ state answer, invariant state → step state = .inr answer →
      right state answer)
    {state : σ} (holds : invariant state)
    (enough : measure state < fuel) :
    ∃ answer, run step fuel state = some answer ∧ right state answer := by
  induction fuel generalizing state with
  | zero => exact absurd enough (Nat.not_lt_zero _)
  | succ fuel ih =>
      cases stepped : step state with
      | inl next =>
          obtain ⟨holds', smaller, same⟩ := goesOn state next holds stepped
          obtain ⟨answer, ran, isRight⟩ := ih holds' (by omega)
          refine ⟨answer, ?_, same answer isRight⟩
          simp only [run, stepped]
          exact ran
      | inr answer =>
          refine ⟨answer, ?_, ends state answer holds stepped⟩
          simp only [run, stepped]

theorem run_view
    {step : σ → σ ⊕ β} {seen : τ → τ ⊕ β} (view : σ → τ) (invariant : σ → Prop)
    (keeps : ∀ state next, invariant state → step state = .inl next → invariant next)
    (alike : ∀ state, invariant state → seen (view state) = (step state).map view id)
    (fuel : Nat) {state : σ} (holds : invariant state) :
    run seen fuel (view state) = run step fuel state := by
  induction fuel generalizing state with
  | zero => rfl
  | succ fuel ih =>
      simp only [run, alike state holds]
      cases stepped : step state with
      | inl next => exact ih (keeps state next holds stepped)
      | inr answer => rfl

end

end Loop

namespace Wildcards

section

variable {α : Type}

/-! ## Patterns -/

/-- A part of a pattern: any run of symbols, or one symbol of some kind. -/
inductive Token (α : Type) where
  | run
  | single (accepts : α → Bool)

namespace Token

def isRun : Token α → Bool
  | run => true
  | single _ => false

/-- The words that a part of a pattern stands for. -/
def language : Token α → Language α
  | run => ⊤
  | single accepts => { word | ∃ symbol, accepts symbol = true ∧ word = [symbol] }

end Token

/-- The words that a pattern stands for. -/
def language (pattern : List (Token α)) : Language α :=
  (pattern.map Token.language).prod

@[simp] theorem mem_language_nil
    {word : List α} :
    word ∈ language ([] : List (Token α)) ↔ word = [] :=
  Language.mem_one word

variable {rest : List (Token α)}

theorem mem_language_run
    {word : List α} :
    word ∈ language (.run :: rest) ↔ ∃ skipped remaining, word = skipped ++ remaining ∧
        remaining ∈ language rest := by
  simp only [language, map_cons, prod_cons, Language.mem_mul]
  constructor
  · rintro ⟨skipped, -, remaining, matched, rfl⟩
    exact ⟨skipped, remaining, rfl, matched⟩
  · rintro ⟨skipped, remaining, rfl, matched⟩
    exact ⟨skipped, trivial, remaining, matched, rfl⟩

theorem mem_language_single
    {accepts : α → Bool} {word : List α} :
    word ∈ language (.single accepts :: rest) ↔
      ∃ symbol remaining, word = symbol :: remaining ∧
        accepts symbol = true ∧ remaining ∈ language rest := by
  simp only [language, map_cons, prod_cons, Language.mem_mul]
  constructor
  · rintro ⟨_, ⟨symbol, isAccepted, rfl⟩, remaining, matched, rfl⟩
    exact ⟨symbol, remaining, rfl, isAccepted, matched⟩
  · rintro ⟨symbol, remaining, rfl, isAccepted, matched⟩
    exact ⟨[symbol], ⟨symbol, isAccepted, rfl⟩, remaining, matched, rfl⟩

theorem nil_mem_language
    {pattern : List (Token α)} :
    [] ∈ language pattern ↔ pattern.all Token.isRun = true := by
  induction pattern with
  | nil => simp
  | cons token rest ih =>
      cases token with
      | run =>
          simp only [mem_language_run, nil_eq, append_eq_nil_iff,
            all_cons, Token.isRun, Bool.true_and]
          constructor
          · rintro ⟨_, _, ⟨rfl, rfl⟩, matched⟩
            exact ih.mp matched
          · intro isRuns
            exact ⟨[], [], ⟨rfl, rfl⟩, ih.mpr isRuns⟩
      | single accepts => simp [mem_language_single, Token.isRun]

theorem drop_mem_language
    {singles : List (Token α)}
    (areSingle : ∀ token ∈ singles, token.isRun = false)
    {word : List α}
    (matched : word ∈ language (singles ++ rest)) :
    singles.length ≤ word.length ∧ word.drop singles.length ∈ language rest := by
  induction singles generalizing word with
  | nil => exact ⟨Nat.zero_le _, matched⟩
  | cons token singles ih =>
      cases token with
      | run => simp [Token.isRun] at areSingle
      | single accepts =>
          obtain ⟨symbol, remaining, rfl, -, matched⟩ := mem_language_single.mp matched
          have rest := ih (fun token member => areSingle token (.tail _ member)) matched
          exact ⟨Nat.succ_le_succ rest.1, rest.2⟩

/-! ## Matching -/

/--
What is left of a word and of a pattern, and the last run that was met: the
word as it was there, and the pattern after it.
-/
structure State (α : Type) where
  word : List α
  pattern : List (Token α)
  resume : Option (List α × List (Token α)) := none

namespace State

/-- Go back to the last run and let it take one symbol more. -/
def retry (state : State α) : State α ⊕ Bool :=
  match state.resume with
  | some (_ :: word, pattern) => .inl ⟨word, pattern, some (word, pattern)⟩
  | _ => .inr false

/-- Match one part of a pattern. -/
def step (state : State α) : State α ⊕ Bool :=
  match state.word with
  | [] => .inr (state.pattern.all Token.isRun)
  | symbol :: word =>
      match state.pattern with
      | [] => state.retry
      | .run :: rest => .inl ⟨state.word, rest, some (state.word, rest)⟩
      | .single accepts :: rest =>
          if accepts symbol then
            .inl ⟨word, rest, state.resume⟩
          else
            state.retry

/-- Since the last run only single symbols have been matched. -/
def Sound (state : State α) : Prop :=
  ∀ began after, state.resume = some (began, after) →
    ∃ singles passed, (∀ token ∈ singles, token.isRun = false) ∧
      after = singles ++ state.pattern ∧ began = passed ++ state.word ∧
        passed.length = singles.length

/-- A run that was met may take more symbols than it has. -/
def MayResume (state : State α) : Prop :=
  ∃ began after skipped remaining, state.resume = some (began, after) ∧
    began = skipped ++ remaining ∧ skipped ≠ [] ∧ remaining ∈ language after

/-- The word is matched from here, or after a retry. -/
def Accepts (state : State α) : Prop :=
  state.word ∈ language state.pattern ∨ state.MayResume

/-- What is left of a pattern is no longer than the pattern. -/
structure Within (parts : Nat) (state : State α) : Prop where
  pattern : state.pattern.length ≤ parts
  after : ∀ began after, state.resume = some (began, after) → after.length ≤ parts

/-- How many steps are left, in a pattern of at most so many parts. -/
def measure (parts : Nat) (state : State α) : Nat :=
  (state.resume.elim state.word.length (fun entry => entry.1.length)) *
    (parts + 2) + state.pattern.length

theorem accepts_of_run
    {state : State α}
    (sound : state.Sound)
    (isRun : state.pattern = .run :: rest)
    (accepts : state.Accepts) :
    state.word ∈ language (.run :: rest) := by
  rcases accepts with matched | resumes
  · exact isRun ▸ matched
  · obtain ⟨began, after, skipped, remaining, isResume, isBegan, -, matched⟩ := resumes
    obtain ⟨singles, passed, areSingle, rfl, rfl, sameLength⟩ :=
      sound began after isResume
    obtain ⟨enough, matched⟩ := drop_mem_language areSingle matched
    rw [isRun] at matched
    -- The word here ends with what the run before would have left.
    have ends : remaining.drop singles.length = state.word.drop (skipped.length) := by
      have dropped := congrArg (drop (skipped.length + singles.length)) isBegan
      rw [← drop_drop, ← drop_drop, drop_left, drop_drop, Nat.add_comm,
        ← drop_drop, ← sameLength, drop_left] at dropped
      rw [← sameLength]
      exact dropped.symm
    rw [ends] at matched
    obtain ⟨more, last, isRest, matched⟩ := mem_language_run.mp matched
    refine mem_language_run.mpr
      ⟨state.word.take skipped.length ++ more, last, ?_, matched⟩
    rw [append_assoc, ← isRest, take_append_drop]

theorem accepts_iff_mayResume
    {state : State α}
    (fails : state.word ∉ language state.pattern) :
    state.Accepts ↔ state.MayResume :=
  or_iff_right fails

/-- A retry gives the last run one symbol more, or nothing matches. -/
theorem retry_spec
    {state : State α}
    (sound : state.Sound)
    (nonempty : state.word ≠ [])
    (fails : state.word ∉ language state.pattern) :
    (∃ symbol word after, state.resume = some (symbol :: word, after) ∧
        state.retry = .inl ⟨word, after, some (word, after)⟩ ∧
        (state.Accepts ↔ Accepts ⟨word, after, some (word, after)⟩)) ∨
      state.resume = none ∧ state.retry = .inr false ∧ ¬state.Accepts := by
  rw [accepts_iff_mayResume fails, retry]
  cases isResume : state.resume with
  | none =>
      refine Or.inr ⟨rfl, rfl, ?_⟩
      rintro ⟨began, after, _, _, isSome, -⟩
      rw [isResume] at isSome
      cases isSome
  | some entry =>
      obtain ⟨began, after⟩ := entry
      obtain ⟨singles, passed, -, -, rfl, -⟩ := sound began after isResume
      cases isBegan : passed ++ state.word with
      | nil => exact absurd (append_eq_nil_iff.mp isBegan).2 nonempty
      | cons symbol word =>
          refine Or.inl ⟨symbol, word, after, rfl, rfl, ?_⟩
          constructor
          · rintro ⟨_, _, skipped, remaining, isSome, isWhole, isSkipped, matched⟩
            rw [isResume, isBegan] at isSome
            cases isSome
            cases skipped with
            | nil => exact absurd rfl isSkipped
            | cons first skipped =>
                obtain ⟨rfl, rfl⟩ := cons.inj isWhole
                cases skipped with
                | nil => exact Or.inl matched
                | cons second skipped =>
                    exact Or.inr ⟨_, _, second :: skipped, remaining, rfl, rfl,
                      cons_ne_nil _ _, matched⟩
          · rintro (matched | ⟨_, _, skipped, remaining, isSome, rfl,
              isSkipped, matched⟩)
            · exact ⟨_, _, [symbol], word, isResume.trans (by simp [isBegan]),
                rfl, cons_ne_nil _ _, matched⟩
            · obtain ⟨rfl, rfl⟩ := Prod.mk.inj (some.inj isSome)
              exact ⟨_, _, symbol :: skipped, remaining,
                isResume.trans (by simp [isBegan]), rfl,
                cons_ne_nil _ _, matched⟩

theorem accepts_meetsRun
    {word : List α} :
    Accepts ⟨word, rest, some (word, rest)⟩ ↔ word ∈ language (.run :: rest) := by
  rw [mem_language_run]
  constructor
  · rintro (matched | ⟨_, _, skipped, remaining, isSome, rfl, -, matched⟩)
    · exact ⟨[], word, rfl, matched⟩
    · obtain ⟨rfl, rfl⟩ := Prod.mk.inj (some.inj isSome)
      exact ⟨skipped, remaining, rfl, matched⟩
  · rintro ⟨skipped, remaining, isWord, matched⟩
    cases skipped with
    | nil => exact Or.inl (isWord ▸ matched)
    | cons first skipped =>
        exact Or.inr ⟨word, rest, first :: skipped, remaining, rfl, isWord,
          cons_ne_nil _ _, matched⟩

/-- One step keeps what is right, and leaves fewer steps. -/
theorem step_goesOn
    {parts : Nat} {state next : State α}
    (sound : state.Sound)
    (within : state.Within parts)
    (stepped : state.step = .inl next) :
    next.Sound ∧ next.Within parts ∧ next.measure parts < state.measure parts ∧
        (state.Accepts ↔ next.Accepts) := by
  have retries {symbol : α} {word : List α} (isWord : state.word = symbol :: word)
      (fails : state.word ∉ language state.pattern)
      (retried : state.retry = .inl next) :
      next.Sound ∧ next.Within parts ∧ next.measure parts < state.measure parts ∧
          (state.Accepts ↔ next.Accepts) := by
    rcases retry_spec sound (isWord ▸ cons_ne_nil _ _) fails with
      ⟨first, later, after, isResume, isNext, same⟩ | ⟨-, isEnd, -⟩
    · cases retried.symm.trans isNext
      have short := within.after _ _ isResume
      refine ⟨?_, ⟨short, ?_⟩, ?_, same⟩
      · rintro _ _ ⟨⟩
        exact ⟨[], [], by simp, rfl, rfl, rfl⟩
      · rintro _ _ ⟨⟩
        exact short
      · simp only [measure, isResume, elim_some, length_cons, Nat.add_mul]
        omega
    · cases retried.symm.trans isEnd
  rw [step] at stepped
  split at stepped
  · cases stepped
  · next symbol word isWord =>
      split at stepped
      · next isNil =>
          refine retries isWord ?_ stepped
          rw [isNil, mem_language_nil, isWord]
          exact cons_ne_nil _ _
      · next rest isRun =>
          cases stepped
          have short : rest.length < parts := by
            have all := within.pattern
            rw [isRun, length_cons] at all
            exact all
          refine ⟨?_, ⟨Nat.le_of_lt short, ?_⟩, ?_, ?_⟩
          · rintro _ _ ⟨⟩
            exact ⟨[], [], by simp, rfl, rfl, rfl⟩
          · rintro _ _ ⟨⟩
            exact Nat.le_of_lt short
          · simp only [measure, elim_some, isRun, length_cons]
            have fewer : state.word.length ≤ state.resume.elim
                state.word.length (fun entry => entry.1.length) := by
              cases isResume : state.resume with
              | none => exact Nat.le_refl _
              | some entry =>
                  obtain ⟨_, passed, -, -, isBegan, -⟩ := sound entry.1 entry.2 isResume
                  simp [isBegan]
            have product := Nat.mul_le_mul_right (parts + 2) fewer
            omega
          · rw [accepts_meetsRun]
            exact ⟨accepts_of_run sound isRun, fun matched => Or.inl (isRun ▸ matched)⟩
      · next accepts rest isSingle =>
          split at stepped
          · next isAccepted =>
              cases stepped
              refine ⟨?_, ⟨?_, within.after⟩, ?_, ?_⟩
              · intro began after isResume
                obtain ⟨singles, passed, areSingle, rfl, rfl, sameLength⟩ :=
                  sound began after isResume
                refine ⟨singles ++ [.single accepts], passed ++ [symbol], ?_,
                  by simp [isSingle], by simp [isWord], by simp [sameLength]⟩
                simpa [or_imp, forall_and, Token.isRun] using areSingle
              · have all := within.pattern
                rw [isSingle, length_cons] at all
                exact Nat.le_of_lt all
              · simp only [measure, isSingle, length_cons, isWord]
                cases state.resume with
                | none =>
                    simp only [elim_none, Nat.add_mul]
                    omega
                | some entry =>
                    simp only [elim_some]
                    omega
              · refine or_congr ?_ ?_
                · rw [isWord, isSingle, mem_language_single]
                  constructor
                  · rintro ⟨_, _, same, -, matched⟩
                    obtain ⟨rfl, rfl⟩ := cons.inj same
                    exact matched
                  · exact fun matched => ⟨symbol, word, rfl, isAccepted, matched⟩
                · rfl
          · next isRefused =>
              refine retries isWord ?_ stepped
              rw [isSingle, mem_language_single, isWord]
              rintro ⟨_, _, same, isAccepted, -⟩
              obtain ⟨rfl, rfl⟩ := cons.inj same
              exact isRefused isAccepted

/-- A last step answers what is right. -/
theorem step_ends
    {state : State α} {answer : Bool}
    (sound : state.Sound)
    (stepped : state.step = .inr answer) :
    answer = true ↔ state.Accepts := by
  have retries {symbol : α} {word : List α} (isWord : state.word = symbol :: word)
      (fails : state.word ∉ language state.pattern)
      (retried : state.retry = .inr answer) :
      answer = true ↔ state.Accepts := by
    rcases retry_spec sound (isWord ▸ cons_ne_nil _ _) fails with
      ⟨_, _, _, -, isNext, -⟩ | ⟨-, isEnd, refused⟩
    · cases retried.symm.trans isNext
    · cases retried.symm.trans isEnd
      simp [refused]
  rw [step] at stepped
  split at stepped
  · next isNil =>
      cases stepped
      rw [← nil_mem_language, Accepts, isNil]
      refine (or_iff_left ?_).symm
      -- A run that takes one more leaves too little for what came after it.
      rintro ⟨began, after, skipped, remaining, isResume, isBegan, isSkipped, matched⟩
      obtain ⟨singles, passed, areSingle, rfl, rfl, sameLength⟩ :=
        sound began after isResume
      have enough := (drop_mem_language areSingle matched).1
      have lengths := congrArg length isBegan
      simp only [isNil, length_append, length_nil] at lengths
      have positive := length_pos_iff.mpr isSkipped
      omega
  · next symbol word isWord =>
      split at stepped
      · next isNil =>
          refine retries isWord ?_ stepped
          rw [isNil, mem_language_nil, isWord]
          exact cons_ne_nil _ _
      · cases stepped
      · next accepts rest isSingle =>
          split at stepped
          · cases stepped
          · next isRefused =>
              refine retries isWord ?_ stepped
              rw [isSingle, mem_language_single, isWord]
              rintro ⟨_, _, same, isAccepted, -⟩
              obtain ⟨rfl, rfl⟩ := cons.inj same
              exact isRefused isAccepted

theorem run_start
    (word : List α) (pattern : List (Token α))
    (enough : word.length * (pattern.length + 2) + pattern.length < fuel) :
    ∃ answer, Loop.run step fuel { word := word, pattern := pattern } =
        some answer ∧
      (answer = true ↔ word ∈ language pattern) := by
  obtain ⟨answer, ran, isRight⟩ := Loop.exists_run
    (fun state : State α => state.Sound ∧ state.Within pattern.length)
    (fun state answer => answer = true ↔ state.Accepts)
    (measure pattern.length)
    (fun state next holds stepped => by
      obtain ⟨sound, within, smaller, same⟩ := step_goesOn holds.1 holds.2 stepped
      exact ⟨⟨sound, within⟩, smaller, fun answer isRight => isRight.trans same.symm⟩)
    (fun state answer holds stepped => step_ends holds.1 stepped)
    (show Sound ⟨word, pattern, none⟩ ∧ Within pattern.length ⟨word, pattern, none⟩ from
        ⟨nofun, Nat.le_refl _, nofun⟩) enough
  refine ⟨answer, ran, isRight.trans ?_⟩
  refine or_iff_left ?_
  rintro ⟨_, _, _, _, isResume, -⟩
  cases isResume

end State

end

end Wildcards

end SlateOrm
