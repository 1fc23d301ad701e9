import Mathlib.Data.Set.Card
import SlateOrm.Aggregates
import SlateOrm.ValueOrder

namespace SlateOrm

open List

/-!
# What aggregates compute

Each aggregate is a function of the values that it reads off the rows, whatever
their order: their number, the number of different ones, the least, the greatest
and the exact sum.  Its accumulator holds what it needs of the rows so far.
-/

/-! ## Values -/

/-- The number that an integer or a decimal holds. -/
def Value.units : Value → Option Int
  | .i64 number => some number.toInt
  | .u64 number => some number.toNat
  | .decimal units => some units.toInt
  | _ => none

/-- Whether a value is an integer. -/
def Value.isWhole : Value → Bool
  | .i64 _ => true
  | .u64 _ => true
  | _ => false

/-- The exact sum of the integers and decimals among some values. -/
def sumOf (values : List Value) : Int := (values.filterMap Value.units).sum

/-- The values that an aggregate reads off some rows. -/
def Aggregate.inputs (aggregate : Aggregate) (rows : List Row) : List Value :=
  rows.filterMap aggregate.input

/-- A value of the list, to which no other is in some order. -/
def IsExtreme (better : Ordering) (values : List Value) (value : Value) :
    Prop :=
  value ∈ values ∧ ∀ other ∈ values, other.cmp value ≠ better

/--
What an aggregate is of some rows.  Of a sum of decimals this says nothing where
it does not fit in 64 bits.
-/
def Aggregate.Computes (aggregate : Aggregate) (rows : List Row)
    (value : Value) : Prop :=
  let inputs := aggregate.inputs rows
  match aggregate with
  | .count => value = .u64 (UInt64.ofNat rows.length)
  | .countColumn _ => value = .u64 (UInt64.ofNat inputs.length)
  | .min _ => (inputs = [] → value = .null) ∧ (inputs ≠ [] → IsExtreme .lt inputs value)
  | .max _ => (inputs = [] → value = .null) ∧ (inputs ≠ [] → IsExtreme .gt inputs value)
  | .sum _ =>
      (inputs = [] → value = .null) ∧
        (inputs ≠ [] → (∀ input ∈ inputs, input.isWhole = true) →
          value = ((Total.toI64 (sumOf inputs)).map Value.i64).getD
            (.f64 (F64.ofInt (sumOf inputs)))) ∧
        (inputs ≠ [] → (∀ input ∈ inputs, Total.isDecimalValue input = true) →
          ∀ units, Total.toI64 (sumOf inputs) = some units → value = .decimal units)
  | .avg _ =>
      (inputs = [] → value = .null) ∧
        (inputs ≠ [] → value = .f64 (F64.div (F64.ofInt (sumOf inputs))
          (F64.ofInt inputs.length)))
  | .countDistinct _ =>
      value = .u64 (UInt64.ofNat (Set.ncard { different | ∃ input ∈ inputs,
          input.canonical = different }))

/-- Rows whose values an aggregate does not refuse. -/
def Aggregate.Accepts (aggregate : Aggregate) (maxDistinct : Nat)
    (rows : List Row) : Prop :=
  let inputs := aggregate.inputs rows
  match aggregate with
  | .sum _ | .avg _ =>
      (∀ input ∈ inputs, input.isWhole = true) ∨
        ∀ input ∈ inputs, Total.isDecimalValue input = true
  | .countDistinct _ =>
      (inputs.map (fun input => encode [input])).toFinset.card ≤ maxDistinct
  | _ => True

/-- Rows whose floats no aggregate adds up. -/
def Aggregate.AddsNoFloat (aggregate : Aggregate) (rows : List Row) : Prop :=
  match aggregate with
  | .sum _ | .avg _ => ∀ input ∈ aggregate.inputs rows, ∀ number, input ≠ .f64 number
  | _ => True

/-! ## Accumulators -/

/-- A total of values without floats. -/
structure Total.Sums (values : List Value) (total : Total) : Prop where
  integer : total.integer = sumOf values
  exact : total.isReal = false
  count : total.count = values.length
  whole : total.isDecimal = false → ∀ value ∈ values, value.isWhole = true
  decimal : total.isDecimal = true →
    values ≠ [] ∧ ∀ value ∈ values, Total.isDecimalValue value = true

/-- The best of some values, if there are any. -/
def IsBest (better : Ordering) (values : List Value) : Option Value → Prop
  | none => values = []
  | some value => IsExtreme better values value

/-- What the accumulator of an aggregate holds of the rows so far. -/
def Aggregate.Accumulated (aggregate : Aggregate) (rows : List Row)
    (accumulator : Accumulator) : Prop :=
  let inputs := aggregate.inputs rows
  match aggregate with
  | .count => accumulator = .count rows.length
  | .countColumn _ => accumulator = .count inputs.length
  | .min _ => ∃ best, accumulator = .extreme best true ∧ IsBest .lt inputs best
  | .max _ => ∃ best, accumulator = .extreme best false ∧ IsBest .gt inputs best
  | .sum _ | .avg _ => ∃ total, accumulator = .total total ∧ total.Sums inputs
  | .countDistinct _ =>
      ∃ seen, accumulator = .distinct seen ∧ seen.Nodup ∧
        ∀ bytes, bytes ∈ seen ↔ bytes ∈ inputs.map (fun input => encode [input])

section

variable
  {values : List Value}
  {value : Value}

theorem sumOf_append
    (values others : List Value) :
    sumOf (values ++ others) = sumOf values + sumOf others := by
  rw [sumOf, filterMap_append, sum_append]
  rfl

theorem Total.sums_nil :
    Total.Sums [] {} :=
  ⟨rfl, rfl, rfl, nofun, nofun⟩

variable {total : Total}

theorem Total.add_whole
    (exact : total.isReal = false)
    (isWhole : value.isWhole = true) :
    total.add value =
      if 0 < total.count ∧ total.isDecimal = true then
        .error (.notSummable value.typeName)
      else
        .ok { total with
          integer := total.integer + sumOf [value]
          count := total.count + 1 } := by
  cases value with
  | i64 number | u64 number =>
      simp [Total.add, isDecimalValue, addInteger, exact, sumOf, Value.units]
  | _ => cases isWhole

theorem Total.add_decimal
    (exact : total.isReal = false)
    (isDecimal : isDecimalValue value = true) :
    total.add value =
      if 0 < total.count ∧ total.isDecimal = false then
        .error (.notSummable "decimal")
      else
        .ok { total with
          isDecimal := true
          integer := total.integer + sumOf [value]
          count := total.count + 1 } := by
  cases value with
  | decimal units =>
      cases decimals : total.isDecimal <;>
        simp [Total.add, isDecimalValue, addInteger, exact, sumOf,
          Value.units, decimals]
  | _ => cases isDecimal

theorem Total.add_other
    (notWhole : value.isWhole = false)
    (notDecimal : isDecimalValue value = false)
    (notFloat : ∀ number, value ≠ .f64 number) :
    ∃ failure, total.add value = .error failure := by
  rw [Total.add]
  split
  · exact ⟨_, rfl⟩
  · cases value with
    | i64 number | u64 number => cases notWhole
    | decimal units => cases notDecimal
    | f64 number => exact absurd rfl (notFloat number)
    | _ => exact ⟨_, rfl⟩

theorem Value.isWhole_of_isDecimalValue
    (isDecimal : Total.isDecimalValue value = true) :
    value.isWhole = false := by
  cases value with
  | decimal units => rfl
  | _ => cases isDecimal

/-- A value that is added is an integer among integers, or a decimal among them. -/
theorem Total.Sums.add
    {next : Total} (sums : total.Sums values)
    (notFloat : ∀ number, value ≠ .f64 number)
    (added : total.add value = .ok next) :
    next.Sums (values ++ [value]) := by
  have counted : (values ++ [value]).length = total.count + 1 := by
    rw [length_append, length_singleton, sums.count]
  have summed : sumOf (values ++ [value]) = total.integer + sumOf [value] := by
    rw [sumOf_append, sums.integer]
  have empty (none_ : total.count = 0) : values = [] :=
    length_eq_zero_iff.mp (sums.count ▸ none_)
  cases isWhole : value.isWhole with
  | true =>
      rw [Total.add_whole sums.exact isWhole] at added
      split at added
      · cases added
      · next isOpen =>
          cases added
          have wholes : total.isDecimal = false := by
            cases isDecimal : total.isDecimal with
            | false => rfl
            | true =>
                have none_ : total.count = 0 := by
                  by_contra some_
                  exact isOpen ⟨Nat.pos_of_ne_zero some_, isDecimal⟩
                exact absurd (empty none_) (sums.decimal isDecimal).1
          refine ⟨summed.symm, sums.exact, counted.symm, fun _ => ?_, ?_⟩
          · exact forall_mem_append.mpr
              ⟨sums.whole wholes, forall_mem_singleton.mpr isWhole⟩
          · intro isDecimal
            exact absurd (wholes.symm.trans isDecimal) (by decide)
  | false =>
      cases isDecimal : isDecimalValue value with
      | true =>
          rw [Total.add_decimal sums.exact isDecimal] at added
          split at added
          · cases added
          · next isOpen =>
              cases added
              refine ⟨summed.symm, sums.exact, counted.symm, nofun,
                fun _ => ⟨by simp, ?_⟩⟩
              refine forall_mem_append.mpr ⟨?_, forall_mem_singleton.mpr isDecimal⟩
              cases decimals : total.isDecimal with
              | true => exact (sums.decimal decimals).2
              | false =>
                  have none_ : total.count = 0 := by
                    by_contra some_
                    exact isOpen ⟨Nat.pos_of_ne_zero some_, decimals⟩
                  rw [empty none_]
                  nofun
      | false =>
          obtain ⟨failure, refused⟩ :=
            @Total.add_other value total isWhole isDecimal notFloat
          rw [refused] at added
          cases added

theorem Total.Sums.exists_add
    (sums : total.Sums values)
    (kind : (∀ input ∈ values ++ [value], input.isWhole = true) ∨
      ∀ input ∈ values ++ [value], isDecimalValue input = true) :
    ∃ next, total.add value = .ok next := by
  have first (some_ : 0 < total.count) : ∃ other, other ∈ values := by
    rw [sums.count] at some_
    exact exists_mem_of_length_pos some_
  rcases kind with wholes | decimals
  · have isWhole := wholes value (by simp)
    rw [Total.add_whole sums.exact isWhole, if_neg]
    · exact ⟨_, rfl⟩
    · rintro ⟨some_, isDecimal⟩
      obtain ⟨other, member⟩ := first some_
      have notWhole := Value.isWhole_of_isDecimalValue
        ((sums.decimal isDecimal).2 other member)
      rw [wholes other (by simp [member])] at notWhole
      cases notWhole
  · have isDecimal := decimals value (by simp)
    rw [Total.add_decimal sums.exact isDecimal, if_neg]
    · exact ⟨_, rfl⟩
    · rintro ⟨some_, notDecimal⟩
      obtain ⟨other, member⟩ := first some_
      have notWhole := Value.isWhole_of_isDecimalValue
        (decimals other (by simp [member]))
      rw [sums.whole notDecimal other member] at notWhole
      cases notWhole

theorem Total.Sums.kind
    (sums : total.Sums values) :
    (∀ input ∈ values, input.isWhole = true) ∨
      ∀ input ∈ values, isDecimalValue input = true := by
  cases isDecimal : total.isDecimal with
  | false => exact Or.inl (sums.whole isDecimal)
  | true => exact Or.inr (sums.decimal isDecimal).2

/-! ## The best -/

theorem isBest_append
    {better : Ordering}
    (strict : better = .lt ∨ better = .gt)
    {best : Option Value} (isBest : IsBest better values best) :
    IsBest better (values ++ [value])
      (if best.all (fun current => value.cmp current == better) then
        some value
      else
        best) := by
  have notSelf : value.cmp value ≠ better := by
    rw [Value.cmp_self]
    rcases strict with rfl | rfl <;> nofun
  cases best with
  | none =>
      obtain rfl : values = [] := isBest
      simpa [IsBest, IsExtreme] using notSelf
  | some current =>
      obtain ⟨member, extreme⟩ : IsExtreme better values current := isBest
      by_cases isBetter : value.cmp current = better
      · rw [if_pos (by simpa using isBetter)]
        refine ⟨by simp, forall_mem_append.mpr
          ⟨fun other isOther => ?_, forall_mem_singleton.mpr notSelf⟩⟩
        intro beats
        refine extreme other isOther ?_
        rcases strict with rfl | rfl
        · exact Std.TransCmp.lt_trans beats isBetter
        · exact Std.TransCmp.gt_trans beats isBetter
      · rw [if_neg (by simpa using isBetter)]
        exact ⟨mem_append_left _ member, forall_mem_append.mpr
          ⟨extreme, forall_mem_singleton.mpr isBetter⟩⟩

/-- Values that are the best of the same values are equal. -/
theorem canonical_of_isBest
    {better : Ordering}
    (strict : better = .lt ∨ better = .gt)
    {values' : List Value} (same : values.Perm values')
    {best best' : Option Value} (isBest : IsBest better values best)
    (isBest' : IsBest better values' best') :
    (best.getD .null).canonical = (best'.getD .null).canonical := by
  cases best with
  | none =>
      obtain rfl : values = [] := isBest
      obtain rfl := nil_perm.mp same
      cases best' with
      | none => rfl
      | some value => cases isBest'.1
  | some value =>
      obtain ⟨member, extreme⟩ : IsExtreme better values value := isBest
      cases best' with
      | none =>
          obtain rfl : values' = [] := isBest'
          rw [perm_nil.mp same] at member
          cases member
      | some value' =>
          obtain ⟨member', extreme'⟩ : IsExtreme better values' value' := isBest'
          refine (Value.cmp_eq_iff_canonical _ _).mp ?_
          have forward := extreme' value (same.subset member)
          have backward := extreme value' (same.symm.subset member')
          rw [Option.getD_some, Option.getD_some]
          cases isOrder : value.cmp value' with
          | eq => rfl
          | lt =>
              rcases strict with rfl | rfl
              · exact absurd isOrder forward
              · exact absurd (Std.OrientedCmp.gt_of_lt isOrder) backward
          | gt =>
              rcases strict with rfl | rfl
              · exact absurd (Std.OrientedCmp.lt_of_gt isOrder) backward
              · exact absurd isOrder forward

end

/-! ## Accumulating -/

namespace Aggregate

variable
  {aggregate : Aggregate}
  {rows : List Row}
  {row : Row}
  {maxDistinct : Nat}
  {accumulator next : Accumulator}

theorem inputs_append_singleton :
    aggregate.inputs (rows ++ [row]) =
      aggregate.inputs rows ++ (aggregate.input row).toList := by
  rw [inputs, filterMap_append]
  cases isInput : aggregate.input row with
  | none
  | some value => simp [inputs, isInput]

theorem card_of_seen
    (values : List Value) {seen : List Bytes} (nodup : seen.Nodup)
    (isSeen : ∀ bytes, bytes ∈ seen ↔
      bytes ∈ values.map (fun value => encode [value])) :
    (values.map (fun value => encode [value])).toFinset.card =
      seen.length := by
  rw [← toFinset_card_of_nodup nodup]
  congr 1
  ext bytes
  rw [mem_toFinset, mem_toFinset, isSeen]

theorem accumulated_nil :
    aggregate.Accumulated [] aggregate.accumulator := by
  cases aggregate with
  | count | countColumn column => rfl
  | min column | max column => exact ⟨none, rfl, rfl⟩
  | sum column | avg column => exact ⟨{}, rfl, Total.sums_nil⟩
  | countDistinct column => exact ⟨[], rfl, nodup_nil, fun _ => Iff.rfl⟩

section

variable
  (accumulated : aggregate.Accumulated rows accumulator)

include accumulated

/-- One more row is accumulated where its value is. -/
theorem accumulated_push
    (noFloat : aggregate.AddsNoFloat (rows ++ [row]))
    (pushed : accumulator.push maxDistinct aggregate row = .ok next) :
    aggregate.Accumulated (rows ++ [row]) next := by
  have totals (isSum : ∃ total, accumulator = .total total ∧
        total.Sums (aggregate.inputs rows))
      (noFloat : ∀ input ∈ aggregate.inputs (rows ++ [row]),
        ∀ number, input ≠ .f64 number) :
      ∃ total, next = .total total ∧ total.Sums (aggregate.inputs (rows ++ [row])) := by
    obtain ⟨total, rfl, sums⟩ := isSum
    rw [inputs_append_singleton] at noFloat ⊢
    rw [Accumulator.push] at pushed
    cases isInput : aggregate.input row with
    | none =>
        simp only [isInput, Except.ok.injEq] at pushed
        subst pushed
        exact ⟨total, rfl, by simpa using sums⟩
    | some value =>
        simp only [isInput] at pushed
        cases added : total.add value with
        | error failure =>
            rw [added] at pushed
            cases pushed
        | ok later =>
            rw [added] at pushed
            cases pushed
            refine ⟨later, rfl, sums.add (fun number => ?_) added⟩
            exact noFloat value (by simp [isInput]) number
  have bests {better : Ordering} {wantMin : Bool} (strict : better = .lt ∨ better = .gt)
      (isBetter : better = if wantMin then .lt else .gt)
      (isExtreme : ∃ best, accumulator = .extreme best wantMin ∧
        IsBest better (aggregate.inputs rows) best) :
      ∃ best, next = .extreme best wantMin ∧
        IsBest better (aggregate.inputs (rows ++ [row])) best := by
    obtain ⟨best, rfl, isBest⟩ := isExtreme
    rw [inputs_append_singleton]
    rw [Accumulator.push] at pushed
    cases isInput : aggregate.input row with
    | none =>
        simp only [isInput, Except.ok.injEq] at pushed
        subst pushed
        exact ⟨best, rfl, by simpa using isBest⟩
    | some value =>
        have appended := @isBest_append _ value _ strict _ isBest
        simp only [isInput, Except.ok.injEq] at pushed
        subst pushed
        refine ⟨_, rfl, ?_⟩
        rw [Option.toList_some]
        convert appended using 3
        cases best with
        | none => rfl
        | some current =>
            subst isBetter
            cases wantMin <;> rfl
  cases aggregate with
  | count =>
      obtain rfl : accumulator = .count rows.length := accumulated
      cases pushed
      simp [Accumulated]
  | countColumn column =>
      obtain rfl : accumulator = .count _ := accumulated
      rw [Accumulated, inputs_append_singleton]
      simp only [Accumulator.push, Aggregate.column] at pushed
      cases isInput : (Aggregate.countColumn column).input row with
      | none =>
          simp only [isInput, Option.isSome_none, Bool.false_eq_true, if_false,
            Except.ok.injEq] at pushed
          simp [← pushed]
      | some value =>
          simp only [isInput, Option.isSome_some, if_true, Except.ok.injEq] at pushed
          simp [← pushed]
  | min column => exact bests (Or.inl rfl) rfl accumulated
  | max column => exact bests (Or.inr rfl) rfl accumulated
  | sum column | avg column => exact totals accumulated noFloat
  | countDistinct column =>
      obtain ⟨seen, rfl, nodup, isSeen⟩ := accumulated
      rw [Accumulated, inputs_append_singleton]
      rw [Accumulator.push] at pushed
      cases isInput : (Aggregate.countDistinct column).input row with
      | none =>
          simp only [isInput, Except.ok.injEq] at pushed
          exact ⟨seen, pushed.symm, nodup, by simpa using isSeen⟩
      | some value =>
          simp only [isInput] at pushed
          split at pushed
          · next isIn =>
              cases pushed
              have member := contains_iff_mem.mp isIn
              refine ⟨seen, rfl, nodup, fun bytes => ?_⟩
              rw [map_append, mem_append, ← isSeen]
              simp only [Option.toList_some, map_singleton, mem_singleton]
              exact ⟨Or.inl, fun either => either.elim id (fun same => same ▸ member)⟩
          · next isNew =>
              split at pushed
              · cases pushed
              · cases pushed
                refine ⟨encode [value] :: seen, rfl,
                  nodup_cons.mpr ⟨?_, nodup⟩, fun bytes => ?_⟩
                · exact fun member => isNew (contains_iff_mem.mpr member)
                · rw [map_append, mem_append, ← isSeen]
                  simp [or_comm]

/-- A row whose value is not refused is accumulated. -/
theorem exists_push
    (accepts : aggregate.Accepts maxDistinct (rows ++ [row])) :
    ∃ next, accumulator.push maxDistinct aggregate row = .ok next := by
  have totals (isSum : ∃ total, accumulator = .total total ∧
        total.Sums (aggregate.inputs rows))
      (kind : (∀ input ∈ aggregate.inputs (rows ++ [row]), input.isWhole = true) ∨
        ∀ input ∈ aggregate.inputs (rows ++ [row]), Total.isDecimalValue input = true) :
      ∃ next, accumulator.push maxDistinct aggregate row = .ok next := by
    obtain ⟨total, rfl, sums⟩ := isSum
    rw [inputs_append_singleton] at kind
    rw [Accumulator.push]
    cases isInput : aggregate.input row with
    | none => exact ⟨_, rfl⟩
    | some value =>
        rw [isInput, Option.toList_some] at kind
        obtain ⟨later, added⟩ := sums.exists_add kind
        exact ⟨.total later, by simp only [added, Except.map]⟩
  cases aggregate with
  | count =>
      obtain rfl : accumulator = .count rows.length := accumulated
      exact ⟨_, rfl⟩
  | countColumn column =>
      obtain rfl : accumulator = .count _ := accumulated
      simp only [Accumulator.push, Aggregate.column]
      split <;> exact ⟨_, rfl⟩
  | min column | max column =>
      obtain ⟨best, rfl, -⟩ := accumulated
      rw [Accumulator.push]
      split <;> exact ⟨_, rfl⟩
  | sum column | avg column => exact totals accumulated accepts
  | countDistinct column =>
      obtain ⟨seen, rfl, nodup, isSeen⟩ := accumulated
      rw [Accumulator.push]
      rw [Accepts, inputs_append_singleton] at accepts
      cases isInput : (Aggregate.countDistinct column).input row with
      | none => exact ⟨_, rfl⟩
      | some value =>
          dsimp only
          split
          · exact ⟨_, rfl⟩
          · next isNew =>
              rw [if_neg]
              · exact ⟨_, rfl⟩
              · -- With the new value there would be one more.
                have absent : encode [value] ∉ seen := fun member =>
                  isNew (contains_iff_mem.mpr member)
                have grown := card_of_seen
                  ((Aggregate.countDistinct column).inputs rows ++ [value])
                  (nodup_cons.mpr ⟨absent, nodup⟩)
                  (fun bytes => by simp [isSeen, or_comm])
                rw [isInput, Option.toList_some, grown, length_cons] at accepts
                exact Nat.not_le.mpr accepts

theorem accepts_push
    (noFloat : aggregate.AddsNoFloat (rows ++ [row]))
    (accepts : aggregate.Accepts maxDistinct rows)
    (pushed : accumulator.push maxDistinct aggregate row = .ok next) :
    aggregate.Accepts maxDistinct (rows ++ [row]) := by
  have later := accumulated_push accumulated noFloat pushed
  cases aggregate with
  | sum column | avg column =>
      obtain ⟨total, -, sums⟩ := later
      exact sums.kind
  | countDistinct column =>
      obtain ⟨seen, rfl, nodup, isSeen⟩ := accumulated
      obtain ⟨seen', rfl, nodup', isSeen'⟩ := later
      rw [Accepts] at accepts ⊢
      rw [card_of_seen _ nodup isSeen] at accepts
      rw [card_of_seen _ nodup' isSeen']
      rw [Accumulator.push] at pushed
      split at pushed
      · cases pushed
        exact accepts
      · dsimp only at pushed
        split at pushed
        · cases pushed
          exact accepts
        · split at pushed
          · cases pushed
          · next isRoom =>
              cases pushed
              exact Nat.lt_of_not_le isRoom
  | _ => trivial

end

/-! ## Results -/

theorem ncard_eq_of_fits
    {values : List Value}
    (fits : ∀ value ∈ values, value.fits = true) :
    Set.ncard { different | ∃ value ∈ values, value.canonical = different } =
      (values.map (fun value => encode [value])).toFinset.card := by
  have image : { different | ∃ value ∈ values, value.canonical = different } =
      Value.canonical '' { value | value ∈ values } := rfl
  have encodings : (((values.map (fun value => encode [value])).toFinset :
      Finset Bytes) : Set Bytes) =
      (fun value => encode [value]) ''
        (Value.canonical '' { value | value ∈ values }) := by
    ext bytes
    simp only [coe_toFinset, mem_map, Set.mem_ofPred_eq, Set.mem_image]
    constructor
    · rintro ⟨value, member, rfl⟩
      refine ⟨value.canonical, ⟨value, member, rfl⟩, ?_⟩
      exact encodeWith_canonical [value] []
    · rintro ⟨_, ⟨value, member, rfl⟩, rfl⟩
      exact ⟨value, member, (encodeWith_canonical [value] []).symm⟩
  rw [image, ← Set.ncard_coe_finset, encodings]
  refine (Set.InjOn.ncard_image ?_).symm
  rintro _ ⟨value, member, rfl⟩ _ ⟨other, member', rfl⟩ same
  have equal := (encodeValue_eq_iff .asc _ _).mp
    (by simpa [encode, encodeWith] using same)
  rwa [Value.cut_eq_self _ (fits value member),
    Value.cut_eq_self _ (fits other member')] at equal

/-- The result of an accumulator is what its aggregate is of the rows. -/
theorem computes_finish
    (accumulated : aggregate.Accumulated rows accumulator)
    (fits : ∀ column, aggregate = .countDistinct column →
      ∀ input ∈ aggregate.inputs rows, input.fits = true) :
    aggregate.Computes rows (accumulator.finish aggregate) := by
  have bests {better : Ordering} {values : List Value} {best : Option Value}
      (isBest : IsBest better values best) :
      (values = [] → best.getD .null = .null) ∧
        (values ≠ [] → IsExtreme better values (best.getD .null)) := by
    cases best with
    | none => exact ⟨fun _ => rfl, fun some_ => absurd isBest some_⟩
    | some value =>
        refine ⟨fun none_ => ?_, fun _ => isBest⟩
        rw [none_] at isBest
        cases isBest.1
  cases aggregate with
  | count =>
      obtain rfl : accumulator = .count rows.length := accumulated
      rfl
  | countColumn column =>
      obtain rfl : accumulator = .count _ := accumulated
      rfl
  | min column | max column =>
      obtain ⟨best, rfl, isBest⟩ := accumulated
      exact bests isBest
  | sum column =>
      obtain ⟨total, rfl, sums⟩ := accumulated
      have counted {inputs : List Value} (some_ : inputs ≠ [])
          (isCount : total.count = inputs.length) : total.count ≠ 0 := by
        rw [isCount]
        exact fun none_ => some_ (length_eq_zero_iff.mp none_)
      refine ⟨fun none_ => ?_, fun some_ wholes => ?_,
        fun some_ decimals units isUnits => ?_⟩
      · have isZero : total.count = 0 := by
          rw [sums.count, none_, length_nil]
        simp only [Accumulator.finish, Total.sum, isZero, if_true]
      · have notDecimal : total.isDecimal = false := by
          cases isDecimal : total.isDecimal with
          | false => rfl
          | true =>
              obtain ⟨other, member⟩ := exists_mem_of_ne_nil _ some_
              have notWhole := Value.isWhole_of_isDecimalValue
                ((sums.decimal isDecimal).2 other member)
              rw [wholes other member] at notWhole
              cases notWhole
        simp only [Accumulator.finish, Total.sum, counted some_ sums.count,
          sums.exact, notDecimal, sums.integer, if_false, Bool.false_eq_true]
      · have isDecimal : total.isDecimal = true := by
          cases isDecimal : total.isDecimal with
          | true => rfl
          | false =>
              obtain ⟨other, member⟩ := exists_mem_of_ne_nil _ some_
              have notWhole := Value.isWhole_of_isDecimalValue (decimals other member)
              rw [sums.whole isDecimal other member] at notWhole
              cases notWhole
        simp only [Accumulator.finish, Total.sum, counted some_ sums.count,
          sums.exact, isDecimal, sums.integer, isUnits, if_false, if_true,
          Bool.false_eq_true, Option.map_some, Option.getD_some]
  | avg column =>
      obtain ⟨total, rfl, sums⟩ := accumulated
      refine ⟨fun none_ => ?_, fun some_ => ?_⟩
      · have isZero : total.count = 0 := by
          rw [sums.count, none_, length_nil]
        simp only [Accumulator.finish, Total.average, isZero, if_true]
      · have counted : total.count ≠ 0 := by
          rw [sums.count]
          exact fun none_ => some_ (length_eq_zero_iff.mp none_)
        simp only [Accumulator.finish, Total.average, counted, sums.exact,
          sums.integer, if_false, Bool.false_eq_true]
        rw [sums.count]
  | countDistinct column =>
      obtain ⟨seen, rfl, nodup, isSeen⟩ := accumulated
      rw [Computes, ncard_eq_of_fits (fits column rfl), card_of_seen _ nodup isSeen]
      rfl

/-- Accumulators of the same rows in another order have equal results. -/
theorem canonical_finish_perm
    {rows' : List Row} {accumulator' : Accumulator} (same : rows.Perm rows')
    (accumulated : aggregate.Accumulated rows accumulator)
    (accumulated' : aggregate.Accumulated rows' accumulator') :
    (accumulator.finish aggregate).canonical =
      (accumulator'.finish aggregate).canonical := by
  have sameInputs : (aggregate.inputs rows).Perm (aggregate.inputs rows') :=
    same.filterMap _
  have totals {values values' : List Value} {total total' : Total}
      (sameValues : values.Perm values')
      (sums : total.Sums values)
      (sums' : total'.Sums values') :
      total.integer = total'.integer ∧ total.isReal = total'.isReal ∧
        total.isDecimal = total'.isDecimal ∧ total.count = total'.count := by
    refine ⟨?_, sums.exact.trans sums'.exact.symm, ?_, ?_⟩
    · rw [sums.integer, sums'.integer]
      exact (sameValues.filterMap _).sum_eq
    · have only {values values' : List Value} {total total' : Total}
          (sameValues : values.Perm values')
          (sums : total.Sums values) (sums' : total'.Sums values')
          (isDecimal : total.isDecimal = true) :
          total'.isDecimal = true := by
        cases isDecimal' : total'.isDecimal with
        | true => rfl
        | false =>
            obtain ⟨some_, decimals⟩ := sums.decimal isDecimal
            obtain ⟨other, member⟩ := exists_mem_of_ne_nil _ some_
            have notWhole := Value.isWhole_of_isDecimalValue (decimals other member)
            rw [sums'.whole isDecimal' other (sameValues.subset member)] at notWhole
            cases notWhole
      rw [Bool.eq_iff_iff]
      exact ⟨only sameValues sums sums', only sameValues.symm sums' sums⟩
    · rw [sums.count, sums'.count, sameValues.length_eq]
  cases aggregate with
  | count =>
      obtain rfl : accumulator = .count rows.length := accumulated
      obtain rfl : accumulator' = .count rows'.length := accumulated'
      rw [same.length_eq]
  | countColumn column =>
      obtain rfl : accumulator = .count _ := accumulated
      obtain rfl : accumulator' = .count _ := accumulated'
      rw [sameInputs.length_eq]
  | min column
  | max column =>
      obtain ⟨best, rfl, isBest⟩ := accumulated
      obtain ⟨best', rfl, isBest'⟩ := accumulated'
      exact canonical_of_isBest (by simp) sameInputs isBest isBest'
  | sum column | avg column =>
      obtain ⟨total, rfl, sums⟩ := accumulated
      obtain ⟨total', rfl, sums'⟩ := accumulated'
      obtain ⟨sameInteger, -, sameDecimal, sameCount⟩ := totals sameInputs sums sums'
      simp only [Accumulator.finish, Total.sum, Total.average, sums.exact, sums'.exact,
        sameInteger, sameDecimal, sameCount, Bool.false_eq_true, if_false]
  | countDistinct column =>
      obtain ⟨seen, rfl, nodup, isSeen⟩ := accumulated
      obtain ⟨seen', rfl, nodup', isSeen'⟩ := accumulated'
      have sameSeen : seen.Perm seen' := by
        rw [perm_ext_iff_of_nodup nodup nodup']
        intro bytes
        rw [isSeen, isSeen']
        exact (sameInputs.map _).mem_iff
      simp only [Accumulator.finish, sameSeen.length_eq]

theorem accepts_perm
    {rows' : List Row} (same : rows.Perm rows')
    (accepts : aggregate.Accepts maxDistinct rows) :
    aggregate.Accepts maxDistinct rows' := by
  have sameInputs : (aggregate.inputs rows).Perm (aggregate.inputs rows') :=
    same.filterMap _
  cases aggregate with
  | sum column | avg column =>
      exact accepts.imp (fun wholes input member => wholes input
        (sameInputs.symm.subset member)) (fun decimals input member => decimals
        input (sameInputs.symm.subset member))
  | countDistinct column =>
      rw [Accepts] at accepts ⊢
      rwa [← toFinset_eq_of_perm _ _ (sameInputs.map _)]
  | _ => trivial

theorem accepts_of_append
    {others : List Row}
    (accepts : aggregate.Accepts maxDistinct (rows ++ others)) :
    aggregate.Accepts maxDistinct rows := by
  have within : aggregate.inputs rows ⊆ aggregate.inputs (rows ++ others) := by
    rw [inputs, inputs, filterMap_append]
    exact subset_append_left _ _
  cases aggregate with
  | sum column | avg column =>
      exact accepts.imp (fun wholes input member => wholes input (within member))
        (fun decimals input member => decimals input (within member))
  | countDistinct column =>
      rw [Accepts] at accepts ⊢
      refine Nat.le_trans (Finset.card_le_card ?_) accepts
      intro bytes member
      rw [mem_toFinset] at member ⊢
      exact map_subset _ within member
  | _ => trivial

end Aggregate

end SlateOrm
