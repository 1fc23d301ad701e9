import SlateOrm.PredicateImplication
import SlateOrm.PlanAccess
import SlateOrm.RowCode

namespace SlateOrm

open List

/-!
# What constraints leave

The planner reads constraints off the conjuncts of a filter and turns them into
ranges of keys.  A row that the filter admits meets the constraints, and a key
made of values that meet them lies in every range they are turned into.
-/

/-! ## Patterns -/

/-- A text that matches starts with the characters before the wildcards. -/
theorem isPrefix_of_likeLoop
    {text pattern : List Char} {fuel t p starT : Nat}
    (matched : likeLoop text pattern fuel t p none starT = true) :
    likePrefixChars (pattern.drop p) <+: text.drop t := by
  induction fuel generalizing t p with
  | zero => cases matched
  | succ fuel ih =>
      rw [likeLoop] at matched
      split at matched
      · -- Nothing is left of the text, so the rest of the pattern is `%`s.
        cases rest : pattern.drop p with
        | nil => exact nil_prefix
        | cons char others =>
            rw [rest, all_cons, Bool.and_eq_true, beq_iff_eq] at matched
            rw [matched.1, likePrefixChars]
            exact nil_prefix
      · next inside =>
          dsimp only at matched
          split at matched
          · cases matched
          · next found =>
              rw [drop_eq_getElem?_toList_append, found]
              exact nil_prefix
          · next found =>
              rw [drop_eq_getElem?_toList_append, found]
              exact nil_prefix
          · next char notPercent notUnderscore found =>
              have begins : ∀ literal width, text[t]? = some literal →
                  likeLoop text pattern fuel (t + 1) (p + width) none starT = true →
                  literal :: likePrefixChars (pattern.drop (p + width)) <+:
                    text.drop t := by
                intro literal width isLiteral restMatches
                rw [drop_eq_getElem?_toList_append (l := text), isLiteral]
                exact (prefix_cons_inj literal).mpr (ih restMatches)
              rw [drop_eq_getElem?_toList_append, found]
              by_cases escapes : char = '\\'
              · subst escapes
                simp only [if_true] at matched
                split at matched
                · next isLiteral =>
                    have begun := begins _ 2 isLiteral matched
                    have two : pattern.drop (p + 2) = (pattern.drop (p + 1)).tail :=
                      tail_drop.symm
                    rw [two, ← head?_drop] at begun
                    cases rest : pattern.drop (p + 1) with
                    | nil
                    | cons escaped others => simpa [rest, likePrefixChars] using begun
                · cases matched
              · simp only [if_neg escapes] at matched
                split at matched
                · next isLiteral =>
                    have begun := begins _ 1 isLiteral matched
                    simpa [likePrefixChars, notPercent, notUnderscore,
                      escapes] using begun
                · cases matched

variable {text : String}

theorem isPrefix_of_likeMatches
    {pattern start : String}
    (matched : likeMatches text pattern = true)
    (isPrefix : likePrefix pattern = some start) :
    start.toList <+: text.toList := by
  have begins := isPrefix_of_likeLoop matched
  rw [drop_zero, drop_zero] at begins
  rw [likePrefix] at isPrefix
  split at isPrefix
  · cases isPrefix
  · obtain rfl := Option.some.inj isPrefix
    rwa [String.toList_ofList]

theorem utf8_isPrefix
    {start : String}
    (begins : start.toList <+: text.toList) :
    utf8 start <+: utf8 text := by
  obtain ⟨rest, whole⟩ := begins
  have isText : text = start ++ String.ofList rest := by
    apply String.toList_injective
    rw [String.toList_append, String.toList_ofList, whole]
  rw [isText, utf8, utf8, String.toByteArray_append, ByteArray.data_append,
    Array.toList_append]
  exact prefix_append _ _

theorem escape_append
    (first second : Bytes) :
    escape (first ++ second) = escape first ++ escape second := by
  induction first with
  | nil => rfl
  | cons byte rest ih =>
      rw [cons_append, escape, escape, ih]
      split <;> rfl

theorem encodePrefix_isPrefix
    {start : String} {direction : Direction} {bytes : Bytes}
    (begins : start.toList <+: text.toList)
    (encoded : encodePrefix (.str start) direction = some bytes) :
    bytes <+: encodeValue direction (.str text) := by
  obtain ⟨rest, whole⟩ := utf8_isPrefix begins
  obtain rfl := Option.some.inj encoded
  rw [encodeValue, pushEscaped, ← whole, escape_append]
  simp only [extend, map_cons, map_append, map_nil, append_assoc, cons_append,
    nil_append, prefix_cons_inj]
  exact prefix_append _ _

/-! ## Bounds -/

/-- A value whose encoding compares with every other one as the value does. -/
def Value.Ordered (value : Value) : Prop :=
  ∀ other : Value, value.cut.cmp other.cut = value.cmp other

variable {value : Value}

theorem Value.ordered_of_isKeyable
    (keyable : value.isKeyable = true) :
    value.Ordered := by
  intro other
  have whole : value.cut = value :=
    Value.cut_eq_self value (Value.fits_of_isKeyable keyable)
  rw [whole]
  by_cases fits : other.isKeyable = true
  · rw [Value.cut_eq_self other (Value.fits_of_isKeyable fits)]
  · have differ : value.classRank ≠ other.classRank := by
      cases other with
      | vector elements
      | array elements => cases value <;> simp [Value.classRank, Value.isKeyable] at *
      | _ => exact absurd rfl fits
    rw [Value.cmp_of_classRank_ne differ,
      Value.cmp_of_classRank_ne (by rwa [Value.classRank_cut]),
      Value.classRank_cut]

theorem compare_bound
    (keyPrefix rest : Bytes) (direction : Direction) (value other : Value) :
    compare (keyPrefix ++ (encodeValue direction value ++ rest))
        (keyPrefix ++ encodeValue direction other) =
      (direction.order (value.cut.cmp other.cut)).then (compare rest []) := by
  have decided := OrderedCode.DecidedBy.append (OrderedCode.DecidedBy.refl keyPrefix)
    (fun _ => encodeValue_direction_decided direction value other)
  have words := decided rest []
  rw [append_nil, append_assoc] at words
  rw [words]
  rfl

theorem isGE_compare_nil
    (bytes : Bytes) :
    (compare bytes []).isGE = true := by
  cases bytes <;> rfl

/-- An operator seen from the side of the encodings. -/
def CmpOp.along (op : CmpOp) : Direction → CmpOp
  | .asc => op
  | .desc => op.mirrored

theorem CmpOp.apply_along
    (op : CmpOp) (direction : Direction) (ordering : Ordering) :
    (op.along direction).apply (direction.order ordering) = op.apply ordering := by
  cases direction with
  | asc => rfl
  | desc => cases op <;> cases ordering <;> rfl

/-- The keys on one side of some bytes. -/
def boundAt (boundary : Bytes) : CmpOp → KeyRange
  | .lt => ⟨.unbounded, .excluded boundary⟩
  | .le =>
      match prefixSuccessor boundary with
      | some after => ⟨.unbounded, .excluded after⟩
      | none => ⟨.unbounded, .unbounded⟩
  | .gt =>
      match prefixSuccessor boundary with
      | some after => ⟨.included after, .unbounded⟩
      | none => emptyRange boundary
  | .ge => ⟨.included boundary, .unbounded⟩
  | .eq | .ne => .all

theorem boundFor_eq_boundAt
    (keyPrefix : Bytes) (op : CmpOp) (value : Value) (direction : Direction) :
    boundFor keyPrefix op value direction =
      boundAt (keyPrefix ++ encodeValue direction value) (op.along direction) := by
  cases direction <;> cases op <;> rfl

theorem bound_isPrefix_iff
    (keyPrefix rest : Bytes) (direction : Direction) (value other : Value) :
    keyPrefix ++ encodeValue direction other <+:
        keyPrefix ++ (encodeValue direction value ++ rest) ↔
      direction.order (value.cut.cmp other.cut) = .eq := by
  have decided := encodeValue_direction_decided direction value other
  rw [prefix_append_right_inj]
  constructor
  · rintro ⟨after, whole⟩
    have words := decided rest after
    rw [whole, Std.ReflOrd.compare_self] at words
    exact (Ordering.then_eq_eq.mp words.symm).1
  · intro same
    have words := decided.compare_eq
    rw [same] at words
    rw [Std.LawfulEqOrd.eq_of_compare words]
    exact prefix_append _ _

theorem isLT_successor
    {bytes key successor : Bytes}
    (after : prefixSuccessor bytes = some successor)
    (notAbove : compare key bytes = .lt ∨ bytes <+: key) :
    (compare key successor).isLT = true := by
  rcases notAbove with below | begins
  · have start := ((isPrefix_iff_between bytes bytes).mp
      (prefix_refl bytes)).2 successor after
    rw [Ordering.isLT_iff_eq_lt] at start ⊢
    exact Std.TransCmp.lt_trans below start
  · exact ((isPrefix_iff_between bytes key).mp begins).2 successor after

theorem exists_successor
    {bytes key : Bytes}
    (above : compare key bytes = .gt)
    (apart : ¬bytes <+: key) :
    ∃ successor, prefixSuccessor bytes = some successor ∧
      (compare key successor).isGE = true := by
  rw [isPrefix_iff_between, above] at apart
  simp only [Ordering.isGE_gt, true_and, not_forall] at apart
  obtain ⟨successor, after, notBelow⟩ := apart
  refine ⟨successor, after, ?_⟩
  cases order : compare key successor with
  | lt => exact absurd (by rw [order]; rfl) notBelow
  | eq
  | gt => rfl

variable {rest : Bytes} {op : CmpOp}

/-- A key is on the side of some bytes that its order to them says. -/
theorem contains_boundAt
    {boundary key : Bytes} {ordering : Ordering}
    (keys : compare key boundary = ordering.then (compare rest []))
    (isPrefix : boundary <+: key ↔ ordering = .eq)
    (holds : op.apply ordering = true) :
    (boundAt boundary op).contains key = true := by
  rw [KeyRange.contains, Bool.and_eq_true]
  cases op with
  | eq
  | ne => exact ⟨rfl, rfl⟩
  | lt =>
      obtain rfl := (CmpOp.apply_lt_iff _).mp holds
      refine ⟨rfl, ?_⟩
      simp only [boundAt, KeyRange.belowEnd, keys]
      rfl
  | ge =>
      have notBelow := (CmpOp.apply_ge_iff _).mp holds
      refine ⟨?_, rfl⟩
      simp only [boundAt, KeyRange.aboveStart, keys]
      cases ordering with
      | lt => cases notBelow
      | eq => exact isGE_compare_nil rest
      | gt => rfl
  | le =>
      have notAbove : compare key boundary = .lt ∨ boundary <+: key := by
        cases ordering with
        | lt => exact Or.inl keys
        | eq => exact Or.inr (isPrefix.mpr rfl)
        | gt => cases holds
      rw [boundAt]
      split
      · next successor after => exact ⟨rfl, isLT_successor after notAbove⟩
      · exact ⟨rfl, rfl⟩
  | gt =>
      obtain rfl := (CmpOp.apply_gt_iff _).mp holds
      have apart : ¬boundary <+: key := by
        rw [isPrefix]
        decide
      obtain ⟨successor, after, past⟩ := exists_successor keys apart
      rw [boundAt, after]
      exact ⟨past, rfl⟩

/-- A key on the strict side of some bytes has the order to them it says. -/
theorem apply_of_contains_boundAt
    {boundary key : Bytes} {ordering : Ordering}
    (keys : compare key boundary = ordering.then (compare rest []))
    (isPrefix : boundary <+: key ↔ ordering = .eq)
    (strict : op = .lt ∨ op = .gt)
    (contained : (boundAt boundary op).contains key = true) :
    op.apply ordering = true := by
  rw [KeyRange.contains, Bool.and_eq_true] at contained
  rcases strict with rfl | rfl
  · have below := contained.2
    simp only [boundAt, KeyRange.belowEnd, keys] at below
    cases ordering with
    | lt => rfl
    | eq =>
        have above := isGE_compare_nil rest
        rw [Ordering.eq_then, Ordering.isLT_iff_eq_lt] at below
        rw [below] at above
        cases above
    | gt => cases below
  · by_contra notAbove
    have before : compare key boundary = .lt ∨ boundary <+: key := by
      cases ordering with
      | lt => exact Or.inl keys
      | eq => exact Or.inr (isPrefix.mpr rfl)
      | gt => exact absurd rfl notAbove
    rw [boundAt] at contained
    split at contained
    · next successor after =>
        have above := contained.1
        have below := isLT_successor after before
        simp only [KeyRange.aboveStart] at above
        rw [Ordering.isLT_iff_eq_lt] at below
        rw [below] at above
        cases above
    · simp only [emptyRange, KeyRange.aboveStart, KeyRange.belowEnd] at contained
      cases order : compare key boundary <;> simp [order] at contained

variable {other : Value}

theorem contains_boundFor
    (ordered : value.Ordered) (keyPrefix rest : Bytes) (direction : Direction)
    (holds : op.apply (value.cmp other) = true) :
    (boundFor keyPrefix op other direction).contains
      (keyPrefix ++ (encodeValue direction value ++ rest)) = true := by
  rw [← ordered, ← op.apply_along direction] at holds
  rw [boundFor_eq_boundAt]
  exact contains_boundAt (compare_bound keyPrefix rest direction value other)
    (bound_isPrefix_iff keyPrefix rest direction value other) holds

/-- A key within a strict bound of a column has its order to the bound. -/
theorem apply_of_contains_boundFor
    {keyPrefix : Bytes} {direction : Direction}
    (strict : op = .lt ∨ op = .gt)
    (contained : (boundFor keyPrefix op other direction).contains
      (keyPrefix ++ (encodeValue direction value ++ rest)) = true) :
    op.apply (value.cut.cmp other.cut) = true := by
  rw [boundFor_eq_boundAt] at contained
  rw [← op.apply_along direction]
  refine apply_of_contains_boundAt (compare_bound keyPrefix rest direction value other)
    (bound_isPrefix_iff keyPrefix rest direction value other) ?_ contained
  rcases strict with rfl | rfl <;> cases direction <;> decide

/-! ## Constraints -/

/-- The value of a column, or null where there is none. -/
def Columns.valueOrNull (row : Columns) (ordinal : Ordinal) : Value :=
  (row ordinal).getD .null

/-- What is said about a column, of the value it holds. -/
structure ColumnConstraints.Met (constraint : ColumnConstraints)
    (value : Value) : Prop where
  equals : ∀ wanted, constraint.equals = some wanted →
    value.canonical = wanted.canonical
  ranges : ∀ bound ∈ constraint.ranges, satisfies value bound.1 bound.2 = true
  anyOf : ∀ values, constraint.anyOf = some values →
    ∃ wanted ∈ values, wanted.isNull = false ∧ wanted.canonical = value.canonical
  startsWith : ∀ wanted, constraint.startsWith = some wanted →
    ∃ start text, wanted = .str start ∧ value = .str text ∧ start.toList <+: text.toList

/-- A row whose columns hold what is said about them. -/
def Constraints.Met (constraints : Constraints) (row : Columns) : Prop :=
  ∀ entry ∈ constraints, entry.2.Met (row.valueOrNull entry.1)

namespace Constraints

variable {row : Columns}
variable {constraints : Constraints}

variable {ordinal : Ordinal}

theorem met_update
    {change : ColumnConstraints → ColumnConstraints} (met : constraints.Met row)
    (changes : ∀ constraint : ColumnConstraints,
      constraint.Met (row.valueOrNull ordinal) →
        (change constraint).Met (row.valueOrNull ordinal)) :
    (constraints.update ordinal change).Met row := by
  induction constraints with
  | nil =>
      intro entry member
      rw [mem_singleton.mp member]
      exact changes {} ⟨nofun, nofun, nofun, nofun⟩
  | cons first rest ih =>
      have metFirst := met first (mem_cons_self ..)
      have metRest : Constraints.Met rest row :=
        fun entry member => met entry (mem_cons_of_mem _ member)
      rw [Constraints.update]
      split
      · next isFirst =>
          subst isFirst
          exact forall_mem_cons.mpr ⟨changes _ metFirst, metRest⟩
      · exact forall_mem_cons.mpr ⟨metFirst, ih metRest⟩

theorem met_of_constraintsFor
    {constraint : ColumnConstraints} (met : constraints.Met row)
    (found : constraintsFor constraints ordinal = some constraint) :
    constraint.Met (row.valueOrNull ordinal) := by
  obtain ⟨entry, isEntry, rfl⟩ := Option.map_eq_some_iff.mp found
  have sameColumn : entry.1 = ordinal := by
    simpa using find?_some isEntry
  rw [← sameColumn]
  exact met entry (mem_of_find?_eq_some isEntry)

theorem canonical_of_equalsFor
    (met : constraints.Met row)
    (fixed : equalsFor constraints ordinal = some value) :
    (row.valueOrNull ordinal).canonical = value.canonical := by
  obtain ⟨constraint, found, isFixed⟩ := Option.bind_eq_some_iff.mp fixed
  exact (met_of_constraintsFor met found).equals value isFixed

theorem met_pinColumn
    (met : constraints.Met row)
    (holds : (row.valueOrNull ordinal).canonical = value.canonical) :
    (pinColumn constraints ordinal value).Met row := by
  induction constraints with
  | nil => exact met
  | cons first rest ih =>
      have metFirst := met first (mem_cons_self ..)
      have metRest : Constraints.Met rest row :=
        fun entry member => met entry (mem_cons_of_mem _ member)
      rw [pinColumn]
      split
      · next isFirst =>
          subst isFirst
          refine forall_mem_cons.mpr ⟨?_, metRest⟩
          refine ⟨?_, metFirst.ranges, nofun, metFirst.startsWith⟩
          rintro wanted isWanted
          cases isWanted
          exact holds
      · exact forall_mem_cons.mpr ⟨metFirst, ih metRest⟩

variable [Platform]

/-- A conjunct adds what is true of every row that it is true of. -/
theorem met_collectConstraint
    {conjunct : Expr} (met : constraints.Met row)
    (holds : conjunct.evaluateOver row = .true) :
    (collectConstraint constraints conjunct).Met row := by
  rw [collectConstraint.eq_def]
  split
  · next column op value =>
      obtain ⟨actual, found, -, -, applies⟩ := evaluateCompare_eq_true_iff.mp holds
      have isValue : row.valueOrNull column = actual := by
        rw [Columns.valueOrNull, found]
        rfl
      split
      · exact met
      · refine met_update met (fun constraint metHere => ?_)
        rw [isValue] at metHere ⊢
        have narrows : ColumnConstraints.Met { constraint with
            ranges := constraint.ranges ++ [(op, value)] } actual := by
          refine ⟨metHere.equals, ?_, metHere.anyOf, metHere.startsWith⟩
          rw [forall_mem_append]
          exact ⟨metHere.ranges, forall_mem_singleton.mpr applies⟩
        cases op with
        | eq =>
            refine ⟨?_, metHere.ranges, metHere.anyOf, metHere.startsWith⟩
            intro wanted isWanted
            cases isWanted
            exact Value.canonical_eq_of_cmp_eq (beq_iff_eq.mp applies)
        | ne => exact metHere
        | lt | le | gt | ge => exact narrows
  · next column pattern =>
      split
      · exact met
      · next start isStart =>
          refine met_update met (fun constraint metHere => ?_)
          refine ⟨metHere.equals, metHere.ranges, metHere.anyOf, ?_⟩
          intro wanted isWanted
          rcases Option.or_eq_some_iff.mp isWanted with older | ⟨-, newer⟩
          · exact metHere.startsWith wanted older
          · cases newer
            rw [Expr.evaluateOver, evaluateLike] at holds
            split at holds
            · next text found =>
                simp only [Bool.false_eq_true, if_false, bne_iff_ne, ne_eq,
                  Truth.from_eq_true_iff, Bool.not_eq_false] at holds
                refine ⟨start, text, rfl, ?_, isPrefix_of_likeMatches holds isStart⟩
                rw [Columns.valueOrNull, found]
                rfl
            · cases holds
  · next column values =>
      split
      · exact met
      · refine met_update met (fun constraint metHere => ?_)
        refine ⟨metHere.equals, metHere.ranges, ?_, metHere.startsWith⟩
        intro wanted isWanted
        rcases Option.or_eq_some_iff.mp isWanted with older | ⟨-, newer⟩
        · exact metHere.anyOf wanted older
        · cases newer
          obtain ⟨actual, found, -, value, member, notNull, equal⟩ :=
            evaluateIn_eq_true_iff.mp holds
          refine ⟨value, member, notNull, ?_⟩
          rw [Columns.valueOrNull, found]
          exact equal
  · next column =>
      refine met_update met (fun constraint metHere => ?_)
      refine ⟨?_, metHere.ranges, metHere.anyOf, metHere.startsWith⟩
      intro wanted isWanted
      cases isWanted
      rw [Expr.evaluateOver, Truth.from_eq_true_iff] at holds
      rw [Columns.valueOrNull]
      cases found : row column with
      | none => rfl
      | some actual =>
          have isNull : actual.isNull = true := by
            simpa [found] using holds
          rw [Value.eq_null_of_isNull isNull]
          rfl
  · exact met

theorem met_collectConstraints
    {conjuncts : List Expr}
    (hold : ∀ conjunct ∈ conjuncts, conjunct.evaluateOver row = .true) :
    (collectConstraints conjuncts).Met row := by
  have nothing : Constraints.Met [] row := nofun
  rw [collectConstraints]
  generalize ([] : Constraints) = before at nothing
  induction conjuncts generalizing before with
  | nil => exact nothing
  | cons conjunct rest ih =>
      obtain ⟨first, others⟩ := forall_mem_cons.mp hold
      exact ih others _ (met_collectConstraint nothing first)

end Constraints

/-! ## Ranges -/

/-- The encodings of the columns of a key. -/
def encodeColumns (row : Columns) (keyColumns : List (Ordinal × Direction)) : Bytes :=
  keyColumns.flatMap (fun entry => encodeValue entry.2 (row.valueOrNull entry.1))

section

variable {row : Columns}
variable {constraints : Constraints}
variable {keyColumns : List (Ordinal × Direction)}

theorem encodeColumns_eq
    (met : constraints.Met row) :
    encodeColumns row keyColumns = (equalityPrefix constraints keyColumns).1 ++
        encodeColumns row (equalityPrefix constraints keyColumns).2 := by
  induction keyColumns with
  | nil => rfl
  | cons first rest ih =>
      obtain ⟨ordinal, direction⟩ := first
      rw [equalityPrefix]
      split
      · rfl
      · next value fixed =>
          have equal := Constraints.canonical_of_equalsFor met fixed
          have sameCode : encodeValue direction (row.valueOrNull ordinal) =
              encodeValue direction value := by
            rw [← encodeValue_canonical, equal, encodeValue_canonical]
          rw [append_assoc, ← ih, ← sameCode]
          rfl

theorem mem_of_mem_equalityPrefix
    {entry : Ordinal × Direction}
    (member : entry ∈ (equalityPrefix constraints keyColumns).2) :
    entry ∈ keyColumns := by
  induction keyColumns with
  | nil => exact member
  | cons first rest ih =>
      rw [equalityPrefix] at member
      split at member
      · exact member
      · exact mem_cons_of_mem _ (ih member)

/-- A key of a row that meets the constraints is one of those left. -/
theorem contains_matchKey
    {base : Bytes} (met : constraints.Met row)
    (ordered : ∀ entry ∈ keyColumns, (row.valueOrNull entry.1).Ordered) :
    (matchKey base keyColumns constraints).contains
      (base ++ encodeColumns row keyColumns ++ rest) = true := by
  have member : ∀ entry ∈ (equalityPrefix constraints keyColumns).2,
      entry ∈ keyColumns :=
    fun entry => mem_of_mem_equalityPrefix
  rw [encodeColumns_eq met, matchKey]
  revert member
  generalize equalityPrefix constraints keyColumns = split
  obtain ⟨bytes, unbound⟩ := split
  intro member
  dsimp only
  have begins : base ++ bytes <+:
      base ++ (bytes ++ encodeColumns row unbound) ++ rest := by
    simp only [append_assoc]
    exact (prefix_append_right_inj base).mpr (prefix_append _ _)
  have whole := (KeyRange.contains_ofPrefix _ _).mpr begins
  cases unbound with
  | nil => exact whole
  | cons first others =>
      obtain ⟨ordinal, direction⟩ := first
      have orderedHere : (row.valueOrNull ordinal).Ordered :=
        ordered _ (member _ (mem_cons_self ..))
      have isKey : base ++ (bytes ++
            encodeColumns row ((ordinal, direction) :: others)) ++ rest =
          base ++ bytes ++ (encodeValue direction (row.valueOrNull ordinal) ++
            (encodeColumns row others ++ rest)) := by
        simp only [encodeColumns, flatMap_cons, append_assoc]
      simp only [head?_cons]
      split
      · exact whole
      · next constraint found =>
          have metHere := Constraints.met_of_constraintsFor met found
          split
          · split
            · next start isStart =>
                obtain ⟨wanted, isWanted, encoded⟩ := Option.bind_eq_some_iff.mp isStart
                obtain ⟨prefixText, text, rfl, isText, startsText⟩ :=
                  metHere.startsWith wanted isWanted
                have starts := encodePrefix_isPrefix startsText encoded
                rw [isKey, isText, KeyRange.contains_ofPrefix, prefix_append_right_inj]
                exact starts.trans (prefix_append _ _)
            · exact whole
          · refine contains_foldl.mpr ⟨whole, fun bound isBound => ?_⟩
            rw [isKey]
            exact contains_boundFor orderedHere _ _ direction
              (metHere.ranges bound isBound)

/-! ## Lists of values -/

theorem eq_str_of_canonical
    (same : value.canonical = (Value.str text).canonical) :
    value = .str text := by
  have texts := (text_respects some none).eq same
  cases value with
  | str other => exact congrArg Value.str (Option.some.inj texts)
  | _ => cases texts

theorem meetsOtherBounds_of_met
    {constraint : ColumnConstraints} (met : constraint.Met value)
    (same : other.canonical = value.canonical) :
    meetsOtherBounds constraint other = true := by
  rw [meetsOtherBounds.eq_def, Bool.and_eq_true, all_eq_true]
  constructor
  · intro bound isBound
    rw [satisfies, (cmp_respects_left bound.2).eq same]
    exact met.ranges bound isBound
  · cases isStart : constraint.startsWith with
    | none => rfl
    | some wanted =>
        obtain ⟨start, text, rfl, rfl, begins⟩ := met.startsWith wanted isStart
        obtain rfl := eq_str_of_canonical same
        exact isPrefixOf_iff_prefix.mpr begins

/-- One of the ranges for the values of a list holds the key. -/
theorem exists_contains_of_inRanges
    {base : Bytes} {ranges : List KeyRange} (met : constraints.Met row)
    (ordered : ∀ entry ∈ keyColumns, (row.valueOrNull entry.1).Ordered)
    (made : inRanges base keyColumns constraints = some ranges) :
    ∃ range ∈ ranges, range.contains
      (base ++ encodeColumns row keyColumns ++ rest) = true := by
  rw [inRanges] at made
  obtain ⟨⟨ordinal, direction⟩, _, made⟩ := Option.bind_eq_some_iff.mp made
  obtain ⟨constraint, found, made⟩ := Option.bind_eq_some_iff.mp made
  obtain ⟨values, isList, made⟩ := Option.bind_eq_some_iff.mp made
  have metHere := Constraints.met_of_constraintsFor met found
  obtain ⟨wanted, member, notNull, equal⟩ := metHere.anyOf values isList
  split at made
  · cases made
  · dsimp only at made
    split at made
    · cases made
    · split at made
      · cases made
      · obtain rfl := Option.some.inj made
        have inSorted : wanted ∈
            (values.filter (fun value => !value.isNull)).insertionSort
              (fun first second => first.cmp second ≠ .gt) := by
          rw [mem_insertionSort, mem_filter]
          exact ⟨member, by simp [notNull]⟩
        obtain ⟨kept, isKept, isEqual⟩ := exists_mem_dedup inSorted
        have sameKept : kept.canonical = (row.valueOrNull ordinal).canonical := by
          rcases isEqual with rfl | isEqual
          · exact equal
          · rw [← (Value.beq_iff_canonical _ _).mp isEqual, equal]
        have contained : (matchKey base keyColumns
              (pinColumn constraints ordinal kept)).contains
              (base ++ encodeColumns row keyColumns ++ rest) = true :=
          contains_matchKey (Constraints.met_pinColumn met sameKept.symm) ordered
        refine ⟨_, ?_, contained⟩
        rw [mem_insertionSort, mem_filter, mem_map]
        refine ⟨⟨kept, ?_, rfl⟩, ?_⟩
        · exact mem_filter.mpr ⟨isKept, meetsOtherBounds_of_met metHere sameKept⟩
        · rw [Bool.not_eq_true']
          by_contra empty
          rw [Bool.not_eq_false] at empty
          rw [KeyRange.contains_eq_false_of_isEmpty empty] at contained
          cases contained

end

end SlateOrm
