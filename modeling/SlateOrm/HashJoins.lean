import SlateOrm.GroupedCursors
import SlateOrm.KeyLayout
import SlateOrm.OuterJoins

namespace SlateOrm

open List

/-!
# Hash joins

A hash join returns, in some order, every pair of rows whose keys are equal and
not null and that the condition admits, and each row of a preserved side that
is in no such pair, whichever side it holds in its table.
-/

/-! ## Keys -/

/-- Whether what rows are joined on is equal, as far as it is encoded. -/
def agreeOn (keys : List JoinKey) (left right : Columns) : Bool := keys.all (fun key =>
    match left key.left, right key.right with
    | some first, some second =>
        !first.isNull && !second.isNull && first.cut == second.cut
    | _, _ => false)

theorem joinValues_cons_eq_some
    {row : Columns} {column : Ordinal} {rest : List Ordinal} {key : Bytes} :
    joinValues row (column :: rest) = some key ↔
      ∃ value others, row column = some value ∧ value.isNull = false ∧
        joinValues row rest = some others ∧
        key = encodeValue .asc value ++ others := by
  rw [joinValues, Option.bind_eq_bind, Option.bind_eq_some_iff]
  constructor
  · rintro ⟨value, found, coded⟩
    split at coded
    · cases coded
    · next notNull =>
        obtain ⟨others, isRest, isKey⟩ := Option.bind_eq_some_iff.mp coded
        cases isKey
        exact ⟨value, others, found, Bool.eq_false_iff.mpr notNull, isRest, rfl⟩
  · rintro ⟨value, others, found, notNull, isRest, rfl⟩
    refine ⟨value, found, ?_⟩
    rw [notNull, isRest]
    rfl

/-- Rows have one join key when what they are joined on is equal. -/
theorem exists_joinValues_iff
    {keys : List JoinKey} {left right : Columns} :
    (∃ key, joinValues left (keys.map JoinKey.left) = some key ∧
      joinValues right (keys.map JoinKey.right) = some key) ↔
        agreeOn keys left right = true := by
  induction keys with
  | nil => exact ⟨fun _ => rfl, fun _ => ⟨[], rfl, rfl⟩⟩
  | cons first rest ih =>
      rw [agreeOn, all_cons, ← agreeOn, Bool.and_eq_true, ← ih, map_cons, map_cons]
      simp only [joinValues_cons_eq_some]
      constructor
      · rintro ⟨key, ⟨value, others, isLeft, notNull, isRest, rfl⟩,
          value', others', isRight, notNull', isRest', same⟩
        obtain ⟨sameValue, rfl⟩ := encodeValue_append_inj same
        refine ⟨?_, others, isRest, isRest'⟩
        rw [isLeft, isRight]
        simp [notNull, notNull', Value.beq_iff_canonical,
          (encodeValue_eq_iff .asc value value').mp sameValue]
      · rintro ⟨isSame, others, isRest, isRest'⟩
        split at isSame
        · next value value' isLeft isRight =>
            simp only [Bool.and_eq_true, Bool.not_eq_true',
              Value.beq_iff_canonical] at isSame
            obtain ⟨⟨notNull, notNull'⟩, same⟩ := isSame
            refine ⟨_, ⟨value, others, isLeft, notNull, isRest, rfl⟩, value',
              others, isRight, notNull', isRest', ?_⟩
            rw [(encodeValue_eq_iff .asc value value').mpr same]
        · cases isSame

/-! ## Held rows -/

theorem Cursor.collect_prepend
    {α : Type} (items : List α) (rest : Cursor α) :
    (Cursor.prepend items rest).collect =
      rest.collect.map (fun others => items ++ others) := by
  induction items with
  | nil =>
      change rest.collect = _
      cases rest.collect <;> rfl
  | cons item items ih =>
      change (do
        let items ← (Cursor.prepend items rest).collect
        return item :: items) = _
      rw [ih]
      cases rest.collect <;> rfl

namespace BuildTable

/-- The table that rows are held in. -/
def holding (columns : List Ordinal) (keepUnmatched : Bool)
    (rows : List Row) : BuildTable where
  rows := rows.filterMap (fun row =>
    (joinValues row.get columns).map (fun key => (key, row)))
  nulls := if keepUnmatched then
      rows.filter (fun row => (joinValues row.get columns).isNone)
    else
      []

/-- Under a key there are the rows that have it. -/
theorem get_holding
    (columns : List Ordinal) (keepUnmatched : Bool) (rows : List Row)
    (key : Bytes) :
    (holding columns keepUnmatched rows).get key =
      rows.filter (fun row => joinValues row.get columns == some key) := by
  rw [get, holding]
  dsimp only
  induction rows with
  | nil => rfl
  | cons row rest ih =>
      rw [filter_cons]
      cases isKey : joinValues row.get columns with
      | none =>
          rw [filterMap_cons_none (by rw [isKey]; rfl), ih]
          rfl
      | some found =>
          rw [filterMap_cons_some (by rw [isKey]; rfl), filter_cons]
          by_cases same : found = key
          · simp [same, ih]
          · simp [same, ih]

end BuildTable

section

variable [Platform]

namespace Join

variable
  (join : Join)
  (schema : JoinSchema)

/-- Whether a row of each side are a pair of a join. -/
def agree (left right : Row) : Bool := agreeOn join.on left.get right.get &&
    (JoinedRow.matched left right).admitted join.having schema

/-- What is returned of a row of a side that is in no pair. -/
def alone (side : Side) (row : Row) : List JoinedRow :=
  if join.joinType.preserves side then [.only row side] else []

/-- The rows of a join: its pairs, and what is in none of them. -/
def rows (lefts rights : List Row) : List JoinedRow :=
  OuterJoin.joined (join.agree schema) .matched (join.alone .left)
    (join.alone .right) lefts rights

/-- Whether a row that is streamed and one that is held are a pair. -/
def agreeFrom (build : Side) (streamed held : Row) : Bool :=
  match build with
  | .left => join.agree schema held streamed
  | .right => join.agree schema streamed held

variable {join schema}

theorem agreeFrom_iff
    {build : Side} {streamed held : Row} :
    join.agreeFrom schema build streamed held = true ↔
      (∃ key, joinValues streamed.get (join.columns build.other) = some key ∧
        joinValues held.get (join.columns build) = some key) ∧
      (JoinedRow.pair streamed held build.other).admitted join.having
        schema = true := by
  cases build with
  | left =>
      rw [agreeFrom, agree, Bool.and_eq_true, ← exists_joinValues_iff]
      exact and_congr_left' (exists_congr (fun _ => and_comm))
  | right =>
      rw [agreeFrom, agree, Bool.and_eq_true, ← exists_joinValues_iff]
      rfl

omit [Platform] in
theorem flatMap_alone
    {side : Side}
    (isDropped : join.joinType.preserves side = false)
    (rows : List Row) :
    rows.flatMap (join.alone side) = [] :=
  flatMap_eq_nil_iff.mpr (fun _ _ => if_neg (by simp [isDropped]))

/-- A join from the side that is streamed. -/
theorem streamed_perm_rows
    (build : Side) (side : Side → List Row) :
    (OuterJoin.joined (join.agreeFrom schema build)
      (fun streamed held => .pair streamed held build.other)
      (join.alone build.other) (join.alone build) (side build.other)
      (side build)).Perm (join.rows schema (side .left) (side .right)) := by
  cases build with
  | left => exact OuterJoin.joined_swap
  | right => exact .refl _

end Join

/-! ## Rows that are streamed -/

variable
  {join : Join}
  {schema : JoinSchema}
  {build : Side}

/-- What a streamed row is paired with, and the places where it is held. -/
def Join.bucket (join : Join) (schema : JoinSchema) (build : Side)
    (table : BuildTable) (row : Row) : List (Bytes × Row × Nat) :=
  (bucketOf table (joinValues row.get (join.columns build.other))).filter (fun entry =>
      (JoinedRow.pair row entry.2.1 build.other).admitted join.having schema)

theorem mem_bucket
    {table : BuildTable} {row held : Row} {key : Bytes} {place : Nat} :
    (key, held, place) ∈ join.bucket schema build table row ↔
      joinValues row.get (join.columns build.other) = some key ∧
        (table.get key)[place]? = some held ∧
        (JoinedRow.pair row held build.other).admitted join.having schema = true := by
  rw [Join.bucket, mem_filter, ← and_assoc]
  refine and_congr_left' ?_
  cases joinValues row.get (join.columns build.other) with
  | none => simp [bucketOf]
  | some found =>
      simp only [bucketOf, mem_map, Prod.mk.injEq, Option.some.injEq,
        mem_zipIdx_iff_getElem?]
      constructor
      · rintro ⟨entry, inTable, rfl, rfl⟩
        exact ⟨rfl, inTable⟩
      · rintro ⟨rfl, inTable⟩
        exact ⟨(held, place), inTable, rfl, rfl⟩

/-- A streamed row is paired with the held ones that agree with it. -/
theorem map_bucket
    {keepUnmatched : Bool} {held : List Row} (row : Row) :
    (join.bucket schema build
        (.holding (join.columns build) keepUnmatched held) row).map
          (fun entry => entry.2.1) =
      held.filter (join.agreeFrom schema build row) := by
  rw [Join.bucket]
  cases isKey : joinValues row.get (join.columns build.other) with
  | none =>
      refine (filter_eq_nil_iff.mpr (fun other _ agrees => ?_)).symm
      obtain ⟨⟨key, isKey', -⟩, -⟩ := Join.agreeFrom_iff.mp agrees
      cases isKey.symm.trans isKey'
  | some key =>
      rw [bucketOf, filter_map, map_map]
      change map Prod.fst _ = _
      refine (OuterJoin.map_fst_filter_zipIdx (fun other =>
        (JoinedRow.pair row other build.other).admitted join.having schema) _).trans ?_
      rw [BuildTable.get_holding, filter_filter]
      refine filter_congr (fun other _ => ?_)
      rw [Bool.eq_iff_iff, Join.agreeFrom_iff, isKey, Bool.and_eq_true,
        beq_iff_eq, and_comm]
      simp

/-- A held row's place is hit by the streamed rows that agree with the row. -/
theorem mem_hits
    {keepUnmatched : Bool} {streamed held : List Row} {other : Row}
    {key : Bytes} {place : Nat}
    (inTable : ((BuildTable.holding (join.columns build) keepUnmatched
      held).get key)[place]? = some other) :
    (key, place) ∈ streamed.flatMap (fun row =>
        (join.bucket schema build (.holding (join.columns build) keepUnmatched
          held) row).map (fun entry => (entry.1, entry.2.2))) ↔
      ∃ row ∈ streamed, join.agreeFrom schema build row other = true := by
  have isKey : joinValues other.get (join.columns build) = some key := by
    have isHeld := mem_of_getElem? inTable
    rw [BuildTable.get_holding, mem_filter, beq_iff_eq] at isHeld
    exact isHeld.2
  simp only [mem_flatMap, mem_map, Prod.mk.injEq]
  constructor
  · rintro ⟨row, inStream, ⟨found, other', place'⟩, inBucket, rfl, rfl⟩
    obtain ⟨isFound, isHere, admitted⟩ := mem_bucket.mp inBucket
    obtain rfl : other' = other := Option.some.inj (isHere.symm.trans inTable)
    exact ⟨row, inStream, Join.agreeFrom_iff.mpr ⟨⟨found, isFound, isKey⟩, admitted⟩⟩
  · rintro ⟨row, inStream, agrees⟩
    obtain ⟨⟨found, isFound, isKey'⟩, admitted⟩ := Join.agreeFrom_iff.mp agrees
    cases isKey.symm.trans isKey'
    exact ⟨row, inStream, (key, other, place),
      mem_bucket.mpr ⟨isFound, inTable, admitted⟩, rfl, rfl⟩

/-- What is held and was never paired is in no pair. -/
theorem unmatched_perm
    {hashOrder : List Bytes → List Bytes}
    (permutes : ∀ keys, (hashOrder keys).Perm keys)
    (streamed held : List Row) :
    let table := BuildTable.holding (join.columns build) true held
    (table.unmatched hashOrder (streamed.flatMap (fun row =>
        (join.bucket schema build table row).map (fun entry =>
          (entry.1, entry.2.2))))).Perm
      (held.filter (fun other => !streamed.any (fun row =>
        join.agreeFrom schema build row other))) := by
  intro table
  let keep (other : Row) : Bool :=
    !streamed.any (fun row => join.agreeFrom schema build row other)
  have keep_eq_false : ∀ other, keep other = false ↔ ∃ row ∈ streamed,
        join.agreeFrom schema build row other = true := by
    intro other
    simp [keep]
  have nulls : table.nulls = held.filter (fun other =>
      (joinValues other.get (join.columns build)).isNone && keep other) := by
    refine filter_congr (fun other _ => ?_)
    cases isKept : keep other with
    | true => exact (Bool.and_true _).symm
    | false =>
        obtain ⟨row, -, agrees⟩ := (keep_eq_false other).mp isKept
        obtain ⟨⟨key, -, isKey⟩, -⟩ := Join.agreeFrom_iff.mp agrees
        rw [isKey]
        rfl
  have unpaired : ∀ key, ((table.get key).zipIdx.filter (fun entry =>
      !(streamed.flatMap (fun row => (join.bucket schema build table row).map
        (fun entry => (entry.1, entry.2.2)))).contains (key, entry.2))).map Prod.fst =
      held.filter (fun other =>
        joinValues other.get (join.columns build) == some key && keep other) := by
    intro key
    rw [filter_congr (q := fun entry => keep entry.1),
      OuterJoin.map_fst_filter_zipIdx, BuildTable.get_holding, filter_filter]
    · exact filter_congr (fun _ _ => Bool.and_comm ..)
    · rintro ⟨other, place⟩ member
      have inTable := mem_zipIdx_iff_getElem?.mp member
      rw [Bool.eq_iff_iff, Bool.not_eq_true', Bool.eq_false_iff, Ne,
        contains_iff_mem, ← Bool.not_eq_false, keep_eq_false, not_iff_not]
      exact mem_hits inTable
  have order := permutes (table.rows.map Prod.fst).dedup
  rw [BuildTable.unmatched, nulls, flatMap_congr (fun key _ => unpaired key)]
  refine OuterJoin.flatMap_byKey_perm (order.nodup_iff.mpr (nodup_dedup _))
    (fun other isHeld key isKey => ?_) keep
  rw [order.mem_iff, mem_dedup, mem_map]
  exact ⟨(key, other), mem_filterMap.mpr ⟨other, isHeld, by rw [isKey]; rfl⟩,
    rfl⟩

/-- Rows are streamed past a table one after the other. -/
theorem collect_hashRows
    (hashOrder : List Bytes → List Bytes) (table : BuildTable)
    {cursor : Cursor Row} {streamed : List Row}
    (collected : cursor.collect = .ok streamed)
    (hit : List (Bytes × Nat)) :
    (hashRows join schema hashOrder build table hit cursor).collect =
      .ok (streamed.flatMap (fun row =>
          if (join.bucket schema build table row).isEmpty then
            join.alone build.other row
          else
            (join.bucket schema build table row).map
              (fun entry => .pair row entry.2.1 build.other)) ++
        (table.unmatched hashOrder (hit ++ streamed.flatMap (fun row =>
          (join.bucket schema build table row).map
            (fun entry => (entry.1, entry.2.2))))).flatMap (join.alone build)) := by
  induction cursor generalizing streamed hit with
  | exhausted =>
      cases collected
      rw [hashRows, flatMap_nil, flatMap_nil, nil_append, append_nil]
      cases isKept : join.joinType.preserves build with
      | false => simp [Join.alone, isKept, Cursor.collect]
      | true =>
          rw [if_pos rfl, Cursor.collect_prepend, Cursor.collect, Except.map,
            append_nil, map_eq_flatMap]
          exact congrArg _ (flatMap_congr (fun row _ => (if_pos isKept).symm))
  | failed error => cases collected
  | yields row rest ih =>
      obtain ⟨others, isRest, isStreamed⟩ := bind_eq_ok.mp collected
      cases isStreamed
      rw [hashRows, Cursor.collect_prepend, ih isRest,
        flatMap_cons, flatMap_cons, append_assoc, append_assoc]
      rfl

/-- Streamed past the rows that are held, rows give those of the join. -/
theorem hashRows_perm
    {hashOrder : List Bytes → List Bytes}
    (permutes : ∀ keys, (hashOrder keys).Perm keys)
    (side : Side → List Row) {cursor : Cursor Row}
    (collected : cursor.collect = .ok (side build.other)) :
    ∃ rows, (hashRows join schema hashOrder build (.holding
        (join.columns build) (join.joinType.preserves build) (side build)) []
          cursor).collect = .ok rows ∧
      rows.Perm (join.rows schema (side .left) (side .right)) := by
  refine ⟨_, collect_hashRows _ _ collected [],
    Perm.trans ?_ (Join.streamed_perm_rows build side)⟩
  refine Perm.trans (Perm.append (.of_eq (flatMap_congr fun row _ => ?_)) ?_)
    OuterJoin.streamed_perm
  · rw [← map_bucket row, isEmpty_map, map_map]
    rfl
  · cases isKept : join.joinType.preserves build with
    | false => rw [Join.flatMap_alone isKept, Join.flatMap_alone isKept]
    | true =>
        exact (unmatched_perm permutes (side build.other) (side build)).flatMap_right _

namespace JoinReads

/--
Whichever side a hash join holds, it returns the rows of the join, in some
order, unless there are more rows on that side than may be held.
-/
theorem joinState_hash
    {reads : JoinReads} {snapshot : Snapshot} {context : SecurityContext}
    {table : Side → TableDef} {rows : Side → List Row}
    (areRead : ∀ side, (do
      let cursor ← reads.execute snapshot context (table side) (join.query side)
      cursor.collect) = .ok (rows side))
    (build : Side) (leftPlan rightPlan : Plan) :
    let outcome := reads.joinState snapshot context (table .left)
      (table .right) join ⟨.hash build, leftPlan, rightPlan⟩
    if (rows build).length ≤ join.buildLimit then
      ∃ cursor joined, outcome = .ok cursor ∧ cursor.collect = .ok joined ∧
        joined.Perm (join.rows (.of (table .left) (table .right)) (rows .left)
          (rows .right))
    else
      outcome = .error (.joinBuildTooLarge (table build).name join.buildLimit) := by
  intro outcome
  obtain ⟨building, isBuilding, isHeld⟩ := bind_eq_ok.mp (areRead build)
  obtain ⟨streamed, isStreamed, isStream⟩ := bind_eq_ok.mp (areRead build.other)
  have isOutcome : outcome = (do
      let rows ← building.collectAtMost
        (.joinBuildTooLarge (table build).name join.buildLimit) join.buildLimit
      return hashRows join (.of (table .left) (table .right)) reads.hashOrder
        build (.holding (join.columns build) (join.joinType.preserves build)
          rows) [] streamed) := by
    cases build with
    | left
    | right =>
        change (reads.execute snapshot context _ _ >>= _) = _
        rw [isBuilding]
        change (Cursor.collectAtMost _ _ _ >>= _) >>= _ = _
        cases building.collectAtMost _ join.buildLimit with
        | error refusal => rfl
        | ok held =>
            exact congrArg (· >>= fun streamed => pure (hashRows join
              (.of (table .left) (table .right)) reads.hashOrder _
                (.holding (join.columns _) (join.joinType.preserves _) held) []
                  streamed)) isStreamed
  rw [isOutcome, Cursor.collectAtMost_of_collect isHeld]
  split
  · obtain ⟨joined, isJoined, perm⟩ := hashRows_perm reads.hashOrder_perm rows isStream
    exact ⟨_, joined, rfl, isJoined, perm⟩
  · rfl

end JoinReads

end

/-! ## Poems that are joined -/

section

local instance joinPlatform : Platform := asciiPlatform

theorem read_poemShelf :
    (do
      let cursor ← indifferentJoinReads.execute poemShelf.transaction .superuser
        (poems .asc) {}
      cursor.collect) = .ok shelvedPoems := by
  with_unfolding_all rfl

/-- Poems and the later ones of the same words. -/
def laterJoin (joinType : JoinType) : Join where
  on := [⟨1, 1⟩]
  joinType := joinType
  having := .compareColumns 0 .lt 2

/-- All the poems, in the order of their keys. -/
def shelfScan : Plan :=
  ({} : PagedQuery).pagePlan indifferentReads (poems .asc) .true

/-- One poem has a later one, and each side has two without. -/
theorem joinState_hash_poems :
    ∃ cursor joined,
      indifferentJoinReads.joinState poemShelf.transaction .superuser (poems .asc)
        (poems .asc) (laterJoin .full) ⟨.hash .left, shelfScan, shelfScan⟩ =
          .ok cursor ∧
      cursor.collect = .ok joined ∧
      joined.Perm [.matched ⟨[.i64 1, .str "a"]⟩ ⟨[.i64 2, .str "a"]⟩,
        .leftOnly ⟨[.i64 2, .str "a"]⟩, .leftOnly ⟨[.i64 3, .str "b"]⟩,
        .rightOnly ⟨[.i64 1, .str "a"]⟩, .rightOnly ⟨[.i64 3, .str "b"]⟩] :=
  @JoinReads.joinState_hash _ (laterJoin .full) indifferentJoinReads
    poemShelf.transaction .superuser (fun _ => poems .asc) (fun _ => shelvedPoems)
    (by rintro ⟨⟩ <;> exact read_poemShelf) .left shelfScan shelfScan

end

end SlateOrm
