import SlateOrm.TupleElementOrder

namespace SlateOrm

open List

open OrderedCode

/-!
# Byte order of encoded tuples is value order

Every element encoding decides its comparison.  The order it decides is the
order of the values as the encoder sees them: a vector's count saturates at
`u32Max`, so the values are compared with their vectors cut to that many
elements.  The results on whole tuples, in both directions, follow from that
one fact.
-/

variable {first second : Value} {number : Int}

namespace Value

mutual

theorem induction
    {motive : Value → Prop}
    (scalar : ∀ value, (∀ elements, value ≠ array elements) → motive value)
    (ofArray : ∀ elements,
      (∀ element ∈ elements, motive element) → motive (array elements)) :
    ∀ value, motive value
  | array elements => ofArray elements (inductionElements scalar ofArray elements)
  | null => scalar _ (fun _ same => nomatch same)
  | bool _ => scalar _ (fun _ same => nomatch same)
  | bytes _ => scalar _ (fun _ same => nomatch same)
  | str _ => scalar _ (fun _ same => nomatch same)
  | i64 _ => scalar _ (fun _ same => nomatch same)
  | u64 _ => scalar _ (fun _ same => nomatch same)
  | f64 _ => scalar _ (fun _ same => nomatch same)
  | decimal _ => scalar _ (fun _ same => nomatch same)
  | uuid _ => scalar _ (fun _ same => nomatch same)
  | vector _ => scalar _ (fun _ same => nomatch same)

theorem inductionElements
    {motive : Value → Prop}
    (scalar : ∀ value, (∀ elements, value ≠ array elements) → motive value)
    (ofArray : ∀ elements,
      (∀ element ∈ elements, motive element) → motive (array elements)) :
    ∀ elements : List Value, ∀ element ∈ elements, motive element
  | [] => by simp
  | value :: rest => by
      intro element member
      rcases mem_cons.mp member with same | inRest
      · rw [same]
        exact induction scalar ofArray value
      · exact inductionElements scalar ofArray rest element inRest

end

mutual

/-- A value with each of its vectors cut to what its count can describe. -/
def cut : Value → Value
  | null => null
  | bool value => bool value
  | bytes value => bytes value
  | str text => str text
  | i64 value => i64 value
  | u64 value => u64 value
  | f64 value => f64 value
  | decimal units => decimal units
  | uuid value => uuid value
  | vector elements => vector (elements.take u32Max)
  | array elements => array (cutList elements)

/-- A list of values with their vectors cut. -/
def cutList : List Value → List Value
  | [] => []
  | value :: rest => cut value :: cutList rest

end

mutual

/-- Whether no vector in a value has more elements than its count can say. -/
def fits : Value → Bool
  | vector elements => elements.length ≤ u32Max
  | array elements => fitsList elements
  | _ => true

/-- Whether no vector in a list of values is too long. -/
def fitsList : List Value → Bool
  | [] => true
  | value :: rest => fits value && fitsList rest

end

@[simp] theorem classRank_cut
    (value : Value) :
    value.cut.classRank = value.classRank := by
  cases value <;> rfl

theorem cutList_eq_self_of_forall
    {values : List Value}
    (each : ∀ value ∈ values, value.fits → value.cut = value)
    (fit : fitsList values) :
    cutList values = values := by
  induction values with
  | nil => rfl
  | cons value rest ih =>
      simp only [fitsList, Bool.and_eq_true] at fit
      have head := each value (mem_cons_self ..) fit.1
      have tail := ih (fun other member => each other (mem_cons_of_mem _ member)) fit.2
      simp [cutList, head, tail]

theorem cut_eq_self
    (value : Value) (fit : value.fits) :
    value.cut = value := by
  induction value using induction with
  | scalar value notArray =>
      cases value with
      | vector elements =>
          simp only [fits, decide_eq_true_eq] at fit
          simp [cut, take_of_length_le fit]
      | array elements => exact absurd rfl (notArray elements)
      | _ => rfl
  | ofArray elements ih =>
      simp only [fits] at fit
      simp [cut, cutList_eq_self_of_forall ih fit]

theorem cutList_eq_self
    {values : List Value} (fit : fitsList values) :
    cutList values = values :=
  cutList_eq_self_of_forall (fun value _ => cut_eq_self value) fit

theorem cmp_of_classRank_ne
    (different : first.classRank ≠ second.classRank) :
    cmp first second = compare first.classRank second.classRank := by
  have unequal : compare first.classRank second.classRank ≠ .eq := by
    simpa using different
  unfold cmp
  split
  · simp [*]
  · simp [*]
  · contradiction

@[simp] theorem cmp_null :
    cmp null null = .eq := rfl

@[simp] theorem cmp_bool
    (first second : Bool) :
    cmp (bool first) (bool second) = compare first second := rfl

@[simp] theorem cmp_bytes
    (first second : Bytes) :
    cmp (bytes first) (bytes second) = compare first second := rfl

@[simp] theorem cmp_str
    (first second : String) :
    cmp (str first) (str second) = compare (utf8 first) (utf8 second) := rfl

@[simp] theorem cmp_f64
    (first second : F64) :
    cmp (f64 first) (f64 second) = floatCmp F64.isNan first second := rfl

@[simp] theorem cmp_decimal
    (first second : Int64) :
    cmp (decimal first) (decimal second) = compare first.toInt second.toInt := rfl

@[simp] theorem cmp_uuid
    (first second : Uuid) :
    cmp (uuid first) (uuid second) = compare first.bytes second.bytes := rfl

@[simp] theorem cmp_array
    (first second : List Value) :
    cmp (array first) (array second) = cmpList first second := rfl

@[simp] theorem cmp_vector
    (first second : List F32) :
    cmp (vector first) (vector second) = cmpVector first second := rfl

theorem cmp_of_asI128
    {number' : Int}
    (widened : first.asI128 = some number)
    (widened' : second.asI128 = some number') :
    cmp first second = compare number number' := by
  cases first <;> simp only [asI128, reduceCtorEq] at widened <;>
    cases second <;> simp only [asI128, reduceCtorEq] at widened' <;>
    cases widened <;> cases widened' <;> simp [cmp, classRank, asI128]

end Value

/-! ## Elements -/

/-- The class of a type code: how many classes end below it. -/
def rankOfCode (code : UInt8) : Nat :=
  [Codes.NULL, Codes.TRUE, Codes.BYTES, Codes.STR, Codes.INT_MAX,
    Codes.DECIMAL, Codes.F64, Codes.UUID, Codes.VECTOR].countP (· < code)

theorem lt_of_rankOfCode_lt
    {first second : UInt8}
    (lower : rankOfCode first < rankOfCode second) :
    first < second := by
  by_contra notLess
  have ordered : second ≤ first := UInt8.not_lt.mp notLess
  have ranks : rankOfCode second ≤ rankOfCode first := by
    apply countP_mono_left
    intro code _ below
    simp only [decide_eq_true_eq] at below ⊢
    exact UInt8.lt_of_lt_of_le below ordered
  omega

theorem rankOfCode_int
    {tag : UInt8}
    (low : 0x0D ≤ tag.toNat)
    (high : tag.toNat ≤ 0x1D) :
    rankOfCode tag = 4 := by
  have each : ∀ number < 0x1E, 0x0D ≤ number → rankOfCode (UInt8.ofNat number) = 4 := by
    decide
  have atTag := each tag.toNat (by omega) low
  rwa [UInt8.ofNat_toNat] at atTag

theorem int64_natAbs_lt
    (value : Int64) :
    value.toInt.natAbs < 2 ^ 64 := by
  have low := value.le_toInt
  have high := value.toInt_lt
  omega

variable {value : Value}

theorem encodeValue_of_asI128
    (widened : value.asI128 = some number) :
    encodeValue .asc value = pushInt (Direction.mask .asc) (number < 0) number.natAbs ∧
      number.natAbs < 2 ^ 64 := by
  cases value with
  | i64 value =>
      obtain rfl := Option.some.inj widened
      exact ⟨rfl, int64_natAbs_lt value⟩
  | u64 value =>
      obtain rfl := Option.some.inj widened
      have nonnegative : decide ((value.toNat : Int) < 0) = false :=
        decide_eq_false (by omega)
      exact ⟨by rw [nonnegative]; rfl, value.toNat_lt⟩
  | _ => cases widened

theorem encodeValue_lead_of_asI128
    (widened : value.asI128 = some number) :
    ∃ code rest, encodeValue .asc value = code :: rest ∧ rankOfCode code = 4 ∧
      Codes.NUL < code ∧ code ≤ Codes.ARRAY := by
  obtain ⟨word, fits⟩ := encodeValue_of_asI128 widened
  obtain ⟨tag, rest, tagged, -, -, low, high⟩ := pushInt_tag number fits
  refine ⟨tag, rest, word.trans tagged, rankOfCode_int low high, ?_, ?_⟩
  · rw [UInt8.lt_iff_toNat_lt]
    exact lt_of_lt_of_le (by decide) low
  · rw [UInt8.le_iff_toNat_le]
    exact le_trans high (by decide)

theorem encodeValue_lead
    (value : Value) :
    ∃ code rest, encodeValue .asc value = code :: rest ∧
      rankOfCode code = value.classRank ∧
      Codes.NUL < code ∧ code ≤ Codes.ARRAY := by
  cases value with
  | i64 value
  | u64 value => exact encodeValue_lead_of_asI128 rfl
  | bool value =>
      cases value with
      | false
      | true => exact ⟨_, [], rfl, rfl, by decide, by decide⟩
  | null => exact ⟨Codes.NULL, [], by simp [encodeValue], rfl, by decide, by decide⟩
  | bytes value
  | str value
  | f64 value
  | decimal units
  | uuid value
  | vector elements
  | array elements => exact ⟨_, _, rfl, rfl, by decide, by decide⟩

theorem encodeValue_decided_of_classRank_ne
    (different : first.classRank ≠ second.classRank) :
    DecidedBy (encodeValue .asc first) (encodeValue .asc second)
      (compare first.classRank second.classRank) := by
  obtain ⟨code, rest, word, rank, -⟩ := encodeValue_lead first
  obtain ⟨code', rest', word', rank', -⟩ := encodeValue_lead second
  rw [word, word']
  apply DecidedBy.ofTags
  · rw [← rank, ← rank'] at different ⊢
    rw [compare_byte]
    rcases lt_or_gt_of_ne different with less | more
    · rw [Nat.compare_eq_lt.mpr less, Nat.compare_eq_lt]
      exact UInt8.lt_iff_toNat_lt.mp (lt_of_rankOfCode_lt less)
    · rw [Nat.compare_eq_gt.mpr more, Nat.compare_eq_gt]
      exact UInt8.lt_iff_toNat_lt.mp (lt_of_rankOfCode_lt more)
  · simpa using different

theorem encodeValue_decided_of_asI128
    {number' : Int}
    (widened : first.asI128 = some number)
    (widened' : second.asI128 = some number') :
    DecidedBy (encodeValue .asc first) (encodeValue .asc second)
      (compare number number') := by
  obtain ⟨word, fits⟩ := encodeValue_of_asI128 widened
  obtain ⟨word', fits'⟩ := encodeValue_of_asI128 widened'
  rw [word, word']
  exact int_decided number number' fits fits'

theorem encodeValue_vector
    (elements : List F32) :
    encodeValue .asc (.vector elements) = Codes.VECTOR ::
        (toBeBytes 4 (elements.take u32Max).length ++ (elements.take u32Max).flatMap
            (fun element => toBeBytes 4 (f32ToOrdered element).toNat)) := by
  have counted : elements.take (min elements.length u32Max) = elements.take u32Max := by
    rw [take_eq_take_iff]
    omega
  simp only [encodeValue, extend_ascMask, counted, length_take,
    cons_append, nil_append, Nat.min_comm u32Max]

/-- Arrays are decided as their elements are, a shorter one first. -/
theorem encodeElements_decided_of_forall
    {first second : List Value}
    (each : ∀ value ∈ first, ∀ other,
      DecidedBy (encodeValue .asc value) (encodeValue .asc other)
        (Value.cmp value.cut other.cut)) :
    DecidedBy (encodeElements .asc first ++ [Codes.NUL])
      (encodeElements .asc second ++ [Codes.NUL])
      (Value.cmpList (Value.cutList first) (Value.cutList second)) := by
  induction first generalizing second with
  | nil =>
      cases second with
      | nil => exact DecidedBy.refl _
      | cons value rest =>
          -- The terminator is below every code an element can start with.
          obtain ⟨code, tail, word, -, positive, -⟩ := encodeValue_lead value
          simp only [encodeElements, word, Value.cutList, Value.cmpList]
          apply DecidedBy.ofTags _ _ _ (by decide)
          rw [compare_byte, Nat.compare_eq_lt]
          exact UInt8.lt_iff_toNat_lt.mp positive
  | cons value rest ih =>
      cases second with
      | nil =>
          obtain ⟨code, tail, word, -, positive, -⟩ := encodeValue_lead value
          simp only [encodeElements, word, Value.cutList, Value.cmpList]
          apply DecidedBy.ofTags _ _ _ (by decide)
          rw [compare_byte, Nat.compare_eq_gt]
          exact UInt8.lt_iff_toNat_lt.mp positive
      | cons value' rest' =>
          simp only [encodeElements, Value.cutList, Value.cmpList, append_assoc]
          exact DecidedBy.append (each value (mem_cons_self ..) value')
            (fun _ => ih (fun other member => each other (mem_cons_of_mem _ member)))

/-- Two values of one class other than arrays. -/
inductive Value.OfOneClass : Value → Value → Prop where
  | null : OfOneClass .null .null
  | bool (first second : Bool) : OfOneClass (.bool first) (.bool second)
  | bytes (first second : Bytes) : OfOneClass (.bytes first) (.bytes second)
  | str (first second : String) : OfOneClass (.str first) (.str second)
  | decimal (first second : Int64) : OfOneClass (.decimal first) (.decimal second)
  | f64 (first second : F64) : OfOneClass (.f64 first) (.f64 second)
  | uuid (first second : Uuid) : OfOneClass (.uuid first) (.uuid second)
  | vector (first second : List F32) : OfOneClass (.vector first) (.vector second)
  | whole {first second : Value} {number other : Int}
      (widened : first.asI128 = some number)
      (widened' : second.asI128 = some other) :
      OfOneClass first second

theorem Value.ofOneClass
    (notArray : ∀ elements, first ≠ .array elements)
    (sameClass : first.classRank = second.classRank) :
    OfOneClass first second := by
  cases first <;> cases second <;> first
    | exact absurd rfl (notArray _)
    | exact .whole rfl rfl
    | (simp [Value.classRank] at sameClass; done)
    | constructor

/-- Elements of one class other than arrays are decided by their payloads. -/
theorem encodeValue_decided_of_classRank_eq
    (notArray : ∀ elements, first ≠ .array elements)
    (sameClass : first.classRank = second.classRank) :
    DecidedBy (encodeValue .asc first) (encodeValue .asc second)
      (Value.cmp first.cut second.cut) := by
  cases Value.ofOneClass notArray sameClass with
  | null => exact DecidedBy.refl _
  | bool first second =>
      cases first <;> cases second <;>
        exact DecidedBy.symbol _ _
  | bytes first second =>
      simpa [encodeValue, pushEscaped, Value.cut] using
        DecidedBy.sameTag _ (escape_decided first second)
  | str first second =>
      simpa [encodeValue, pushEscaped, Value.cut] using
        DecidedBy.sameTag _ (escape_decided (utf8 first) (utf8 second))
  | whole widened widened' =>
      have isWhole {value : Value} {number : Int}
          (widened : value.asI128 = some number) :
          value.cut = value := by
        cases value <;> first | rfl | cases widened
      rw [isWhole widened, isWhole widened', Value.cmp_of_asI128 widened widened']
      exact encodeValue_decided_of_asI128 widened widened'
  | decimal first second =>
      simpa [encodeValue, Value.cut] using DecidedBy.sameTag _ (int_decided first.toInt
        second.toInt (int64_natAbs_lt first) (int64_natAbs_lt second))
  | f64 first second =>
      simpa [encodeValue, Value.cut] using
        DecidedBy.sameTag _ (f64_decided first second)
  | uuid first second =>
      simpa [encodeValue, Value.cut] using
        DecidedBy.sameTag _ (bytes_decided first.bytes second.bytes
          (first.sixteen.trans second.sixteen.symm))
  | vector first second =>
      rw [encodeValue_vector, encodeValue_vector, Value.cut, Value.cut,
        Value.cmp_vector]
      exact DecidedBy.sameTag _ (vector_decided _ _
        (length_take_le ..) (length_take_le ..))

/--
Every element decides its comparison, as the order of the values with their
vectors cut.
-/
theorem encodeValue_decided
    (first second : Value) :
    DecidedBy (encodeValue .asc first) (encodeValue .asc second)
      (Value.cmp first.cut second.cut) := by
  induction first using Value.induction generalizing second with
  | scalar first notArray =>
      by_cases sameClass : first.classRank = second.classRank
      · exact encodeValue_decided_of_classRank_eq notArray sameClass
      · rw [Value.cmp_of_classRank_ne (by simpa using sameClass),
          Value.classRank_cut, Value.classRank_cut]
        exact encodeValue_decided_of_classRank_ne sameClass
  | ofArray elements ih =>
      cases second with
      | array elements' =>
          simpa [encodeValue, Value.cut] using DecidedBy.sameTag Codes.ARRAY
            (encodeElements_decided_of_forall ih)
      | _ => exact encodeValue_decided_of_classRank_ne (by simp [Value.classRank])

/-! ## Directions and whole tuples -/

theorem extend_append
    (mask : UInt8) (first second : Bytes) :
    extend mask (first ++ second) = extend mask first ++ extend mask second :=
  map_append

theorem pushInt_mask
    (mask : UInt8) (negative : Bool) (magnitude : Nat) :
    pushInt mask negative magnitude =
      extend mask (pushInt (Direction.mask .asc) negative magnitude) := by
  unfold pushInt
  split <;> simp

theorem encodeElements_mask_of_forall
    {direction : Direction} {elements : List Value}
    (each : ∀ element ∈ elements, encodeValue direction element =
        extend direction.mask (encodeValue .asc element)) :
    encodeElements direction elements =
      extend direction.mask (encodeElements .asc elements) := by
  induction elements with
  | nil => rfl
  | cons element rest ih =>
      simp only [encodeElements, extend_append]
      rw [each element (mem_cons_self ..), ih
        (fun other member => each other (mem_cons_of_mem _ member))]

theorem encodeValue_mask
    (direction : Direction) (value : Value) :
    encodeValue direction value = extend direction.mask (encodeValue .asc value) := by
  induction value using Value.induction with
  | scalar value notArray =>
      cases value with
      | bool value => cases value <;> simp [encodeValue]
      | i64 value
      | u64 value => exact pushInt_mask ..
      | decimal units =>
          simp only [encodeValue, extend_ascMask, extend_append]
          rw [pushInt_mask]
      | array elements => exact absurd rfl (notArray elements)
      | _ => simp only [encodeValue, pushEscaped, extend_ascMask, extend_append]
  | ofArray elements ih =>
      simp only [encodeValue, extend_ascMask, extend_append]
      rw [encodeElements_mask_of_forall ih]

namespace Direction

/-- A comparison as a direction sees it. -/
def order : Direction → Ordering → Ordering
  | asc, result => result
  | desc, result => result.swap

end Direction

theorem encodeValue_direction_decided
    (direction : Direction) (first second : Value) :
    DecidedBy (encodeValue direction first) (encodeValue direction second)
      (direction.order (Value.cmp first.cut second.cut)) := by
  have ascending := encodeValue_decided first second
  cases direction with
  | asc => exact ascending
  | desc =>
      rw [encodeValue_mask, encodeValue_mask .desc, extend_descMask, extend_descMask]
      exact ascending.reversed complement_reverses

/--
The order of two tuples, element by element, with each comparison reversed
where its direction is descending.
-/
def compareWith : List Direction → List Value → List Value → Ordering
  | _, [], [] => .eq
  | _, [], _ :: _ => .lt
  | _, _ :: _, [] => .gt
  | directions, first :: firsts, second :: seconds =>
      ((directions.headD .asc).order (Value.cmp first second)).then
        (compareWith directions.tail firsts seconds)

theorem compareWith_eq_iff
    (directions : List Direction) (first second : List Value) :
    compareWith directions first second = .eq ↔ (first == second) = true := by
  induction first generalizing directions second with
  | nil =>
      cases second with
      | nil
      | cons _ _ => simp [compareWith]
  | cons value rest ih =>
      cases second with
      | nil => simp [compareWith]
      | cons value' rest' =>
          have heads : (directions.headD .asc).order (Value.cmp value value') = .eq ↔
                (value == value') = true := by
            cases directions.headD .asc <;>
              simp [Direction.order, BEq.beq]
          rw [compareWith, Ordering.then_eq_eq, heads, ih
            directions.tail rest', cons_beq_cons, Bool.and_eq_true]

theorem encodeValue_head
    (direction : Direction) (value : Value) :
    ∃ head rest, encodeValue direction value = head :: rest ∧
      (head.toNat < 0x80 ↔ direction = .asc) := by
  obtain ⟨code, rest, word, -, -, high⟩ := encodeValue_lead value
  have bound : code.toNat ≤ 0x24 := UInt8.le_iff_toNat_le.mp high
  refine ⟨code ^^^ direction.mask, extend direction.mask rest, ?_, ?_⟩
  · rw [encodeValue_mask, word]
    rfl
  · cases direction with
    | asc =>
        simp only [Direction.mask, UInt8.xor_zero, iff_true]
        omega
    | desc =>
        rw [xor_descMask, UInt8.toNat_not]
        simp only [UInt8.size, reduceCtorEq, iff_false]
        omega

theorem compare_encodeWith
    (first second : List Value) (directions : List Direction) :
    compare (encodeWith first directions) (encodeWith second directions) =
      compareWith directions (Value.cutList first) (Value.cutList second) := by
  induction first generalizing second directions with
  | nil =>
      cases second with
      | nil => rfl
      | cons value rest =>
          obtain ⟨code, tail, word, -⟩ := encodeValue_head (directions.headD .asc) value
          rw [encodeWith, encodeWith, word]
          rfl
  | cons value rest ih =>
      cases second with
      | nil =>
          obtain ⟨code, tail, word, -⟩ := encodeValue_head (directions.headD .asc) value
          rw [encodeWith, encodeWith, word]
          rfl
      | cons value' rest' =>
          rw [encodeWith, encodeWith, encodeValue_direction_decided _ value value', ih]
          rfl

theorem encodeValue_prefixFree
    {direction direction' : Direction} {value' : Value}
    (begins : encodeValue direction value <+: encodeValue direction' value') :
    encodeValue direction value = encodeValue direction' value' := by
  by_cases sameDirection : direction = direction'
  · subst sameDirection
    have decided := encodeValue_direction_decided direction value value'
    have equal := decided.eq_of_prefix begins
    have words := decided.compare_eq
    rw [equal] at words
    exact Std.LawfulEqOrd.eq_of_compare words
  · obtain ⟨head, rest, word, low⟩ := encodeValue_head direction value
    obtain ⟨head', rest', word', low'⟩ := encodeValue_head direction' value'
    rw [word, word', cons_prefix_cons] at begins
    rw [begins.1, low'] at low
    cases direction <;> cases direction' <;> simp_all

/--
What the key format promises of two tuples: their encodings compare as they
do, are equal exactly when they are, and no element's encoding is a proper
prefix of another's.
-/
def EncodingOrders (first second : List Value) (directions : List Direction) : Prop :=
  compare (encodeWith first directions) (encodeWith second directions) =
      compareWith directions first second ∧
    (encodeWith first directions = encodeWith second directions ↔
      (first == second) = true) ∧
    ∀ direction direction' value value',
      encodeValue direction value <+: encodeValue direction' value' →
      encodeValue direction value = encodeValue direction' value'

/--
The promise is kept exactly when cutting every vector to what its count can
describe leaves the order of the two tuples as it is.
-/
theorem encodingOrders_iff
    (first second : List Value) (directions : List Direction) :
    EncodingOrders first second directions ↔
      compareWith directions (Value.cutList first) (Value.cutList second) =
        compareWith directions first second := by
  have bytes := compare_encodeWith first second directions
  constructor
  · rintro ⟨order, -, -⟩
    rw [← bytes, order]
  · intro cutsAlike
    have order := bytes.trans cutsAlike
    refine ⟨order, ?_, fun _ _ _ _ => encodeValue_prefixFree⟩
    rw [← compareWith_eq_iff directions, ← order]
    exact Std.LawfulEqOrd.compare_eq_iff_eq.symm

theorem compareWith_cutList
    (directions : List Direction) {first second : List Value}
    (firstFits : Value.fitsList first) (secondFits : Value.fitsList second) :
    compareWith directions (Value.cutList first) (Value.cutList second) =
      compareWith directions first second := by
  rw [Value.cutList_eq_self firstFits, Value.cutList_eq_self secondFits]

/-- A vector of one zero more than a count can describe. -/
def overlongVector : Value := .vector (List.replicate (u32Max + 1) 0)

/-- A vector of as many zeros as a count can describe. -/
def fullVector : Value := .vector (List.replicate u32Max 0)

theorem encodeWith_overlongVector :
    encodeWith [overlongVector] [] = encodeWith [fullVector] [] := by
  have sameCut : (replicate (u32Max + 1) (0 : F32)).take u32Max =
        (replicate u32Max (0 : F32)).take u32Max := by
    rw [take_replicate, take_replicate]
    simp
  simp only [encodeWith, overlongVector, fullVector, headD_nil,
    encodeValue_vector, sameCut]

theorem overlongVector_beq_fullVector :
    (overlongVector == fullVector) = false := by
  have lengths : compare (replicate (u32Max + 1) (0 : F32)).length
        (replicate u32Max (0 : F32)).length = .gt := by
    rw [length_replicate, length_replicate]
    exact Nat.compare_eq_gt.mpr (Nat.lt_succ_self _)
  simp only [overlongVector, fullVector, BEq.beq, Value.cmp_vector,
    Value.cmpVector, lengths]
  rfl

/-- Two vectors of different lengths share one encoding. -/
theorem not_encodingOrders_overlongVector :
    ¬ EncodingOrders [overlongVector] [fullVector] [] := by
  rintro ⟨-, identity, -⟩
  have equal := identity.mp encodeWith_overlongVector
  simp [overlongVector_beq_fullVector] at equal

end SlateOrm
