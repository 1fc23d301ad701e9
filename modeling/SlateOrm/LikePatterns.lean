import SlateOrm.PlanConstraints
import SlateOrm.Wildcards

namespace SlateOrm

open List Option

/-!
# Texts that match a pattern

The loop that matches a text against a `LIKE` pattern moves two places, one in
the text and one in the pattern, and keeps where the last `%` was met.  Seen as
what is left of the text and of the parts of the pattern, it is the loop that
matches wildcards, which answers whether the text is in the pattern's language.
-/

/-! ## Languages -/

/-- The parts of a pattern: wildcards, and characters that stand for themselves. -/
def likeTokens : List Char → List (Wildcards.Token Char)
  | [] => []
  | '%' :: rest => .run :: likeTokens rest
  | '_' :: rest => .single (fun _ => true) :: likeTokens rest
  | ['\\'] => [.single (· == '\\')]
  | '\\' :: escaped :: rest => .single (· == escaped) :: likeTokens rest
  | char :: rest => .single (· == char) :: likeTokens rest

/-- The texts that a pattern stands for. -/
def likeLanguage (pattern : String) : Language Char :=
  Wildcards.language (likeTokens pattern.toList)

theorem length_likeTokens
    (pattern : List Char) :
    (likeTokens pattern).length ≤ pattern.length := by
  fun_induction likeTokens pattern <;>
    simp only [length_cons, length_nil] <;> omega

theorem all_likeTokens
    (pattern : List Char) :
    (likeTokens pattern).all Wildcards.Token.isRun = pattern.all (· == '%') := by
  fun_induction likeTokens pattern with
  | case1 => rfl
  | case2 rest ih => simpa [Wildcards.Token.isRun] using ih
  | case6 char rest notPercent =>
      have isOther : char ≠ '%' := fun same => notPercent same
      simp [Wildcards.Token.isRun, isOther]
  | _ => simp [Wildcards.Token.isRun]

/-! ## The loop -/

/-- The variables of the loop of `likeMatches`. -/
structure LikeState where
  t : Nat := 0
  p : Nat := 0
  starP : Option Nat := none
  starT : Nat := 0

namespace LikeState

variable (text pattern : List Char)

/-- What happens when the text does not go on as the pattern does. -/
def retry (state : LikeState) : LikeState ⊕ Bool :=
  match state.starP with
  | some star => .inl ⟨state.starT + 1, star + 1, some star, state.starT + 1⟩
  | none => .inr false

/-- One turn of the loop of `likeMatches`. -/
def next (state : LikeState) : LikeState ⊕ Bool := if text.length ≤ state.t then
    .inr ((pattern.drop state.p).all (· == '%'))
  else
    match pattern[state.p]? with
    | none => state.retry
    | some '%' => .inl ⟨state.t, state.p + 1, some state.p, state.t⟩
    | some '_' => .inl { state with t := state.t + 1, p := state.p + 1 }
    | some char =>
        let literal := if char = '\\' then (pattern[state.p + 1]?).getD '\\' else char
        let width := if char = '\\' then 2 else 1
        if text[state.t]? = some literal then
          .inl { state with t := state.t + 1, p := state.p + width }
        else
          state.retry

/-- A loop with a bound on its turns is the loop, as far as the bound lets it. -/
theorem likeLoop_eq_run
    (fuel : Nat) (state : LikeState) :
    likeLoop text pattern fuel state.t state.p state.starP state.starT =
      (Loop.run (next text pattern) fuel state).getD false := by
  induction fuel generalizing state with
  | zero => rfl
  | succ fuel ih =>
      obtain ⟨t, p, starP, starT⟩ := state
      have goesOn (later : LikeState)
          (stepped : next text pattern ⟨t, p, starP, starT⟩ = .inl later) :
          likeLoop text pattern fuel later.t later.p later.starP later.starT =
            (Loop.run (next text pattern) (fuel + 1)
              ⟨t, p, starP, starT⟩).getD false := by
        simp only [Loop.run, stepped]
        exact ih later
      have retries {answer : Bool} (gone : starP = none → answer = false)
          (again : ∀ star, starP = some star →
            answer = likeLoop text pattern fuel (starT + 1) (star + 1)
              (some star) (starT + 1))
          (stepped : next text pattern ⟨t, p, starP, starT⟩ =
            retry ⟨t, p, starP, starT⟩) :
          answer = (Loop.run (next text pattern) (fuel + 1)
            ⟨t, p, starP, starT⟩).getD false := by
        cases starP with
        | none => simp only [Loop.run, stepped, retry, getD_some, gone]
        | some star => exact (again star rfl).trans (goesOn _ stepped)
      simp only [likeLoop]
      by_cases outside : text.length ≤ t
      · simp only [Loop.run, next, outside, if_true, getD_some]
      · simp only [outside, if_false]
        split
        · next found =>
            exact retries (fun isNone => by simp only [isNone])
              (fun star isStar => by simp only [isStar])
              (by simp only [next, outside, if_false, found])
        · next found =>
            exact goesOn ⟨t, p + 1, some p, t⟩
              (by simp only [next, outside, if_false, found])
        · next found =>
            exact goesOn ⟨t + 1, p + 1, starP, starT⟩
              (by simp only [next, outside, if_false, found])
        · next char notPercent notUnderscore found =>
            by_cases isMet : text[t]? = some (if char = '\\' then
                (pattern[p + 1]?).getD '\\' else char)
            · simp only [isMet, if_true]
              exact goesOn ⟨t + 1, _, starP, starT⟩
                (by simp only [next, outside, if_false, found, isMet, if_true])
            · simp only [isMet, if_false]
              exact retries (fun isNone => by simp only [isNone])
                (fun star isStar => by simp only [isStar])
                (by simp only [next, outside, if_false, found, isMet])

/-- What is left to match, and what was left at the last `%`. -/
def view (state : LikeState) : Wildcards.State Char where
  word := text.drop state.t
  pattern := likeTokens (pattern.drop state.p)
  resume := state.starP.map (fun star =>
    (text.drop state.starT, likeTokens (pattern.drop (star + 1))))

/-- The loop comes back to a place in the text that it has passed. -/
def Behind (state : LikeState) : Prop := state.starT ≤ state.t

theorem behind_next
    {state after : LikeState} (behind : state.Behind)
    (stepped : state.next text pattern = .inl after) :
    after.Behind := by
  have retries (retried : state.retry = .inl after) : after.Behind := by
    rw [retry] at retried
    split at retried
    · obtain rfl := Sum.inl.inj retried
      exact Nat.le_refl _
    · cases retried
  have later : state.starT ≤ state.t + 1 := Nat.le_succ_of_le behind
  simp only [next] at stepped
  split at stepped
  · cases stepped
  · split at stepped
    · exact retries stepped
    · obtain rfl := Sum.inl.inj stepped
      exact Nat.le_refl _
    · obtain rfl := Sum.inl.inj stepped
      exact later
    · next char _ _ _ =>
        by_cases isMet : text[state.t]? = some (if char = '\\' then
            (pattern[state.p + 1]?).getD '\\' else char)
        · simp only [isMet, if_true] at stepped
          obtain rfl := Sum.inl.inj stepped
          exact later
        · simp only [isMet, if_false] at stepped
          exact retries stepped

/-- A turn of the loop is a step of the loop that matches wildcards. -/
theorem step_view
    {state : LikeState} (behind : state.Behind) :
    (state.view text pattern).step =
      (state.next text pattern).map (view text pattern) id := by
  have retries (inside : state.t < text.length) : (state.view text pattern).retry =
        state.retry.map (view text pattern) id := by
    rw [Wildcards.State.retry, retry, view]
    cases state.starP with
    | none => rfl
    | some star =>
        have within : state.starT < text.length := Nat.lt_of_le_of_lt behind inside
        simp only [map_some, drop_eq_getElem_cons within]
        rfl
  by_cases outside : text.length ≤ state.t
  · have isNil : (state.view text pattern).word = [] := drop_eq_nil_iff.mpr outside
    simp only [Wildcards.State.step, next, isNil, outside, if_true]
    exact congrArg Sum.inr (all_likeTokens _)
  · have inside : state.t < text.length := Nat.lt_of_not_le outside
    have isWord : (state.view text pattern).word =
        text[state.t] :: text.drop (state.t + 1) :=
      drop_eq_getElem_cons inside
    have isSymbol : text[state.t]? = some text[state.t] := getElem?_eq_getElem inside
    -- A character that stands for itself is met or not.
    have literal (accepted : Char) (width : Nat)
        (isParts : (state.view text pattern).pattern = .single (· == accepted) ::
            likeTokens (pattern.drop (state.p + width)))
        (isNext : next text pattern state =
          if text[state.t]? = some accepted then
            .inl { state with t := state.t + 1, p := state.p + width }
          else
            state.retry) :
        (state.view text pattern).step =
          (state.next text pattern).map (view text pattern) id := by
      simp only [Wildcards.State.step, isWord, isParts, isNext, isSymbol,
        some.injEq, beq_iff_eq]
      by_cases isMet : text[state.t] = accepted
      · simp only [isMet, if_true, Sum.map_inl]
        rfl
      · simp only [isMet, if_false]
        exact retries inside
    cases isPattern : pattern.drop state.p with
    | nil =>
        have isNone : pattern[state.p]? = none := by
          rw [← head?_drop, isPattern]
          rfl
        have isParts : (state.view text pattern).pattern = [] := by
          simp only [view, isPattern, likeTokens]
        simp only [Wildcards.State.step, next, isWord, isParts, isNone,
          outside, if_false]
        exact retries inside
    | cons char rest =>
        have isChar : pattern[state.p]? = some char := by
          rw [← head?_drop, isPattern]
          rfl
        have isRest : pattern.drop (state.p + 1) = rest := by
          rw [← tail_drop, isPattern]
          rfl
        have isParts : (state.view text pattern).pattern =
            likeTokens (char :: rest) := by
          simp only [view, isPattern]
        by_cases isPercent : char = '%'
        · subst isPercent
          simp only [Wildcards.State.step, next, isWord, isParts, likeTokens,
            isChar, outside, if_false, Sum.map_inl]
          simp only [view, isRest, map_some, drop_eq_getElem_cons inside]
        by_cases isUnderscore : char = '_'
        · subst isUnderscore
          simp only [Wildcards.State.step, next, isWord, isParts, likeTokens,
            isChar, outside, if_false, if_true, Sum.map_inl]
          simp only [view, isRest]
        have isNext : next text pattern state =
            if text[state.t]? = some (if char = '\\' then
              (pattern[state.p + 1]?).getD '\\' else char) then
            .inl { state with
              t := state.t + 1
              p := state.p + if char = '\\' then 2 else 1 }
            else
              state.retry := by
          simp only [next, outside, if_false, isChar]
        by_cases escapes : char = '\\'
        · subst escapes
          have two : pattern.drop (state.p + 2) = rest.tail := by
            rw [← isRest, tail_drop]
          have isEscaped : pattern[state.p + 1]? = rest.head? := by
            rw [← isRest, head?_drop]
          rw [if_pos rfl, if_pos rfl, isEscaped] at isNext
          refine literal _ 2 (isParts.trans ?_) isNext
          rw [two]
          cases rest with
          | nil
          | cons escaped rest => rfl
        · rw [if_neg escapes, if_neg escapes] at isNext
          refine literal char 1 (isParts.trans ?_) isNext
          rw [isRest, likeTokens]
          all_goals simp_all

end LikeState

/--
Matching a text against a pattern comes to an end, and says whether the text is
in the pattern's language; and a text that matches starts with the pattern's
prefix.
-/
theorem likeMatches_exact
    (text pattern : String) :
    Loop.Returns (LikeState.next text.toList pattern.toList) {}
        (likeMatches text pattern) ∧
      (likeMatches text pattern = true ↔ text.toList ∈ likeLanguage pattern) ∧
      ∀ start, likePrefix pattern = some start →
        likeMatches text pattern = true → start.toList <+: text.toList := by
  have enough : text.toList.length * ((likeTokens pattern.toList).length + 2) +
        (likeTokens pattern.toList).length <
      (text.toList.length + 2) * (text.toList.length + pattern.toList.length + 2) := by
    have parts := length_likeTokens pattern.toList
    have product := Nat.mul_le_mul_left text.toList.length
      (show (likeTokens pattern.toList).length + 2 ≤
        text.toList.length + pattern.toList.length + 2 by omega)
    rw [Nat.add_mul]
    omega
  obtain ⟨answer, ran, isRight⟩ :=
    Wildcards.State.run_start text.toList (likeTokens pattern.toList) enough
  have ran' : Loop.run (LikeState.next text.toList pattern.toList)
      ((text.toList.length + 2) * (text.toList.length + pattern.toList.length + 2)) {} =
      some answer :=
    (Loop.run_view (LikeState.view text.toList pattern.toList) LikeState.Behind
      (fun _ _ behind stepped =>
        LikeState.behind_next text.toList pattern.toList behind stepped)
      (fun _ behind => LikeState.step_view text.toList pattern.toList behind)
      _ (show LikeState.Behind {} from Nat.le_refl 0)).symm.trans ran
  have isAnswer : likeMatches text pattern = answer := by
    have looped := LikeState.likeLoop_eq_run text.toList pattern.toList
      ((text.toList.length + 2) * (text.toList.length + pattern.toList.length + 2)) {}
    rw [ran'] at looped
    exact looped
  refine ⟨?_, ?_, fun start isPrefix matched =>
    isPrefix_of_likeMatches matched isPrefix⟩
  · rw [isAnswer]
    exact Loop.returns_of_run ran'
  · rw [isAnswer]
    exact isRight

end SlateOrm
