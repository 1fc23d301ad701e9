import SlateOrm.TupleValue

namespace SlateOrm

/-!
# Key ranges

A scan reads the keys between two bounds.  Ranges come from the planner's
bounds arithmetic and from the prefix property of the encoding: the keys that
begin with some bytes are a contiguous range.
-/

/-- One end of a range. -/
inductive Bound where
  | included (key : Bytes)
  | excluded (key : Bytes)
  | unbounded
  deriving DecidableEq, Repr

/--
The first byte string above every one that begins with a prefix: the prefix
up to its last byte below `0xFF`, with that byte incremented.  A prefix of
only `0xFF` bytes has none.
-/
def prefixSuccessor : Bytes → Option Bytes
  | [] => none
  | byte :: rest =>
      match prefixSuccessor rest with
      | some successor => some (byte :: successor)
      | none => if byte = 0xFF then none else some [byte + 1]

/-- A range of keys. -/
structure KeyRange where
  start : Bound
  stop : Bound
  deriving DecidableEq, Repr

namespace KeyRange

/-- Every key. -/
def all : KeyRange where
  start := .unbounded
  stop := .unbounded

/-- The keys that begin with some bytes. -/
def ofPrefix (bytes : Bytes) : KeyRange where
  start := .included bytes
  stop :=
    match prefixSuccessor bytes with
    | some successor => .excluded successor
    | none => .unbounded

/-- Whether a key is at or above the lower bound. -/
def aboveStart (start : Bound) (key : Bytes) : Bool :=
  match start with
  | .unbounded => true
  | .included bound => (compare key bound).isGE
  | .excluded bound => (compare key bound).isGT

/-- Whether a key is at or below the upper bound. -/
def belowEnd (stop : Bound) (key : Bytes) : Bool :=
  match stop with
  | .unbounded => true
  | .included bound => (compare key bound).isLE
  | .excluded bound => (compare key bound).isLT

/-- Whether a key lies in a range. -/
def contains (range : KeyRange) (key : Bytes) : Bool :=
  aboveStart range.start key && belowEnd range.stop key

/-- Whether the bounds alone leave no key. -/
def isEmpty (range : KeyRange) : Bool :=
  match range.start, range.stop with
  | .included start, .included stop => (compare start stop).isGT
  | .included start, .excluded stop => (compare start stop).isGE
  | .excluded start, .excluded stop => (compare start stop).isGE
  | .excluded start, .included stop => (compare start stop).isGE
  | _, _ => false

/-- The later of two lower bounds. -/
def maxStart (first second : Bound) : Bound :=
  match first, second with
  | .unbounded, _ => second
  | _, .unbounded => first
  | .included x, .included y | .included x, .excluded y =>
      if (compare x y).isGT then first else second
  | .excluded x, .included y | .excluded x, .excluded y =>
      if (compare y x).isGT then second else first

/-- The earlier of two upper bounds. -/
def minEnd (first second : Bound) : Bound :=
  match first, second with
  | .unbounded, _ => second
  | _, .unbounded => first
  | .included x, .included y | .included x, .excluded y =>
      if (compare x y).isLT then first else second
  | .excluded x, .included y | .excluded x, .excluded y =>
      if (compare y x).isLT then second else first

/-- The keys of two ranges. -/
def intersect (self other : KeyRange) : KeyRange where
  start := maxStart self.start other.start
  stop := minEnd self.stop other.stop

theorem isLE_of_aboveStart
    {start : Bound} {bound key : Bytes} (above : aboveStart start key)
    (isBound : start = .included bound ∨ start = .excluded bound) :
    (compare bound key).isLE := by
  rcases isBound with rfl | rfl
  · exact Std.OrientedCmp.isGE_iff_isLE.mp above
  · have greater : compare key bound = .gt := Ordering.isGT_iff_eq_gt.mp above
    rw [Std.OrientedCmp.lt_of_gt greater]
    rfl

/-- A range whose bounds leave no key contains none. -/
theorem contains_eq_false_of_isEmpty
    {range : KeyRange} (empty : range.isEmpty) (key : Bytes) :
    range.contains key = false := by
  apply Bool.eq_false_iff.mpr
  intro contained
  obtain ⟨above, below⟩ := Bool.and_eq_true_iff.mp contained
  rcases range with ⟨start, stop⟩
  cases start with
  | unbounded => simp [isEmpty] at empty
  | included low =>
      have lowest := isLE_of_aboveStart above (Or.inl rfl)
      cases stop with
      | unbounded => simp [isEmpty] at empty
      | included high =>
          have ordered := Std.TransOrd.isLE_trans lowest below
          have reversed : compare low high = .gt := Ordering.isGT_iff_eq_gt.mp empty
          rw [reversed] at ordered
          cases ordered
      | excluded high =>
          have ordered := Std.TransCmp.lt_of_isLE_of_lt lowest
            (Ordering.isLT_iff_eq_lt.mp below)
          exact Std.OrientedCmp.not_isLE_of_lt ordered
            (Std.OrientedCmp.isGE_iff_isLE.mp empty)
  | excluded low =>
      have lower : compare low key = .lt :=
        Std.OrientedCmp.lt_of_gt (Ordering.isGT_iff_eq_gt.mp above)
      cases stop with
      | unbounded => simp [isEmpty] at empty
      | included high =>
          have ordered := Std.TransCmp.lt_of_lt_of_isLE lower below
          exact Std.OrientedCmp.not_isLE_of_lt ordered
            (Std.OrientedCmp.isGE_iff_isLE.mp empty)
      | excluded high =>
          have ordered := Std.TransCmp.lt_trans lower (Ordering.isLT_iff_eq_lt.mp below)
          exact Std.OrientedCmp.not_isLE_of_lt ordered
            (Std.OrientedCmp.isGE_iff_isLE.mp empty)

end KeyRange

/-- One stored entry. -/
structure KeyValue where
  key : Bytes
  value : Bytes
  deriving DecidableEq, Repr

/-- The order in which a scan yields its entries. -/
inductive ScanOrder where
  | ascending
  | descending
  deriving DecidableEq, Repr, Inhabited

end SlateOrm
