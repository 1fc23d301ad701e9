import SlateOrm.PlanBounds

namespace SlateOrm

open List Keys Option

/-!
# Text indexes

A text index holds a row under each term of its text, and a search is for rows
whose text has every term of a text.  A row that the index admits has the terms
of a search exactly when it has an entry for each, and the range that is read for
a term has the entry of every row that the term is in.
-/

open MatchContext

/-- The entry of a row for one term of its text. -/
def textEntry (table : TableDef) (index : IndexDef) (row : Row)
    (term : String) : Keys.IndexEntry :=
  Keys.indexEntry table index [.str term] (row.primaryKeyValues table)

/-- The range that is read for one term of a search. -/
def MatchContext.textRange (context : MatchContext) (index : IndexDef)
    (term : String) : Option KeyRange :=
  let keyPrefix := Keys.indexPrefix context.table index none
  (match context.table.tenantColumn with
    | none => some keyPrefix
    | some tenant =>
        (equalsFor context.constraints tenant).map
          (fun value => keyPrefix ++ encodeValue .asc value)).map
    (fun keyPrefix => .ofPrefix (keyPrefix ++ encodeValue .asc (.str term)))

theorem exists_textRange
    {context : MatchContext} {index : IndexDef} {candidate : Candidate}
    (matched : matchTextIndex context index = some candidate) :
    ∃ term range, textTerm context index = some term ∧
      context.textRange index term = some range ∧
        candidate.access = .indexScan index.id range false := by
  rw [matchTextIndex] at matched
  obtain ⟨term, isTerm, matched⟩ := bind_eq_some_iff.mp matched
  dsimp only at matched
  split at matched
  · next isTenant =>
      cases matched
      exact ⟨term, _, isTerm, by
        simp only [textRange, isTenant, map_some], rfl⟩
  · next tenant isTenant =>
      obtain ⟨keyPrefix, isPrefix, matched⟩ := bind_eq_some_iff.mp matched
      cases matched
      exact ⟨term, _, isTerm, by
        simp only [textRange, isTenant, isPrefix, map_some], rfl⟩

section

variable
  {table : TableDef}
  {index : IndexDef}

theorem textEntry_key_inj
    (wellFormed : table.WellFormed)
    (member : index ∈ table.indexes)
    (isText : index.text = true)
    {row : Row} {term other : String}
    (same : (textEntry table index row term).key =
      (textEntry table index row other).key) :
    term = other := by
  obtain ⟨notUnique, notComputed, column, -, single, -⟩ :=
    (wellFormed.indexes index member).text isText
  simp only [textEntry, indexEntry_eq, entryBytes, slotBytes, slotIsUnique, notUnique,
    Bool.false_and, Bool.false_eq_true, if_false, IndexDef.keyDirections, notComputed,
    single, map_cons, map_nil, zip_cons_cons, zip_nil_left, flatMap_cons, flatMap_nil,
    append_nil, append_assoc, append_cancel_left_eq] at same
  -- Of two encodings that start the same bytes one begins the other.
  have equal : encodeValue column.direction (.str term) =
      encodeValue column.direction (.str other) := by
    have begins := prefix_append (encodeValue column.direction (.str term))
      (encode (row.primaryKeyValues table))
    rw [same] at begins
    rcases prefix_or_prefix_of_prefix begins (prefix_append _ _) with begins | begins
    · exact encodeValue_prefixFree begins
    · exact (encodeValue_prefixFree begins).symm
  have canonical := (encodeValue_eq_iff _ _ _).mp equal
  exact Value.str.inj canonical

variable [Platform]

theorem mem_admittedEntries_text
    (isText : index.text = true)
    {column : IndexColumn}
    (isColumn : index.columns.head? = some column)
    {row : Row}
    (admitted : index.admits row = true)
    {entry : IndexEntry} :
    entry ∈ admittedEntries table index row ↔
      ∃ text term, row.get column.ordinal = some (.str text) ∧
        term ∈ tokenize text ∧ entry = textEntry table index row term := by
  simp only [mem_admittedEntries, IndexDef.keySets, isText, isColumn,
    Bool.not_true, Bool.false_eq_true, if_false]
  constructor
  · rintro ⟨-, values, isSet, rfl⟩
    split at isSet
    · next text isValue =>
        obtain ⟨term, isTerm, rfl⟩ := mem_map.mp isSet
        exact ⟨text, term, isValue, isTerm, rfl⟩
    · cases isSet
  · rintro ⟨text, term, isValue, isTerm, rfl⟩
    refine ⟨admitted, [.str term], ?_, rfl⟩
    simp only [isValue]
    exact mem_map_of_mem isTerm

theorem exists_textEntry_iff
    (wellFormed : table.WellFormed)
    (member : index ∈ table.indexes)
    (isText : index.text = true)
    {column : IndexColumn}
    (isColumn : index.columns.head? = some column)
    {row : Row}
    (admitted : index.admits row = true)
    (term : String) :
    (∃ entry ∈ admittedEntries table index row,
        entry.key = (textEntry table index row term).key) ↔
      ∃ text, row.get column.ordinal = some (.str text) ∧ term ∈ tokenize text := by
  constructor
  · rintro ⟨entry, isEntry, same⟩
    obtain ⟨text, other, isValue, isTerm, rfl⟩ :=
      (mem_admittedEntries_text isText isColumn admitted).mp isEntry
    obtain rfl := textEntry_key_inj wellFormed member isText same
    exact ⟨text, isValue, isTerm⟩
  · rintro ⟨text, isValue, isTerm⟩
    exact ⟨_, (mem_admittedEntries_text isText isColumn admitted).mpr
      ⟨text, term, isValue, isTerm, rfl⟩, rfl⟩

theorem evaluate_contains_iff
    {row : Row} {column : Ordinal} {terms : List String}
    (nonempty : terms ≠ []) :
    (Expr.contains column terms).evaluate row = .true ↔
      ∃ text, row.get column = some (.str text) ∧
        ∀ term ∈ terms, term ∈ tokenize text := by
  have notEmpty : terms.isEmpty = false := by
    simpa using nonempty
  rw [Expr.evaluate, Expr.evaluateOver, evaluateContains]
  split
  · next text isValue => simp [notEmpty, isValue]
  · next isOther =>
      constructor
      · nofun
      · rintro ⟨text, isValue, -⟩
        exact (isOther text isValue).elim

/-- The range of a term has the entry of a row that it is in. -/
theorem contains_textRange
    (wellFormed : table.WellFormed)
    (member : index ∈ table.indexes)
    (isText : index.text = true)
    (ascending : ∀ column ∈ index.columns, column.direction = .asc)
    {context : MatchContext}
    (ofTable : context.table = table)
    {row : Row} (admits : context.Admits row) {term : String} {range : KeyRange}
    (isRange : context.textRange index term = some range) :
    range.contains (textEntry table index row term).key = true := by
  subst ofTable
  have isPrefix : range = .ofPrefix (indexPrefix context.table index none ++
        encodeColumns (extendRow row context.compute [] none).get
          (tenantColumns context.table) ++ encodeValue .asc (.str term)) := by
    rw [textRange] at isRange
    rw [tenantColumns]
    cases isTenant : context.table.tenantColumn with
    | none =>
        simp only [isTenant, map_some, some.injEq] at isRange
        simp [encodeColumns, ← isRange]
    | some tenant =>
        simp only [isTenant, Option.map_map] at isRange
        obtain ⟨value, isFixed, rfl⟩ := map_eq_some_iff.mp isRange
        have equal := Constraints.canonical_of_equalsFor admits.met isFixed
        simp only [encodeColumns, flatMap_cons, flatMap_nil,
          append_nil, Function.comp_apply]
        rw [← encodeValue_canonical .asc value, ← equal, encodeValue_canonical]
  rw [isPrefix, KeyRange.contains_ofPrefix, textEntry, indexEntry_eq, indexPrefix_none,
    entryBytes, key_of_ascending wellFormed admits member isText ascending]
  simp only [append_assoc]
  exact (prefix_append_right_inj _).mpr
    ((prefix_append_right_inj _).mpr (prefix_append _ _))

/--
A row has the terms of a search exactly when a text index has an entry of it for
each.
-/
def IndexDef.FindsTerms (index : IndexDef) (table : TableDef)
    (column : IndexColumn) (row : Row) (search : String) : Prop :=
  (Expr.contains column.ordinal (tokenize search)).evaluate row = .true ↔
    ∀ term ∈ tokenize search, ∃ entry ∈ admittedEntries table index row,
      entry.key = (textEntry table index row term).key

/--
Where a query admits a row, the range of each term of a search that the row has,
and the range that the planner reads, have an entry of the row.
-/
structure IndexDef.RangesReach (index : IndexDef) (table : TableDef)
    (column : IndexColumn) (row : Row) (search : String) : Prop where
  ranges : ∀ (predicate : Expr) (projection : Projection)
      (stats : TableStats) (sort : List SortKey) (compute : List Scalar),
    predicate.admits (extendRow row compute [] none) = true →
    (Expr.contains column.ordinal (tokenize search)).evaluate row = .true →
    ∀ term ∈ tokenize search, ∀ range,
      (matchContext table predicate projection stats sort compute).textRange
        index term = some range →
      ∃ entry ∈ admittedEntries table index row, range.contains entry.key = true
  chosen : ∀ (predicate : Expr) (projection : Projection)
      (stats : TableStats) (sort : List SortKey) (compute : List Scalar)
      (candidate : Candidate),
    predicate.admits (extendRow row compute [] none) = true →
    matchTextIndex (matchContext table predicate projection stats sort compute) index =
        some candidate →
    ∃ range, candidate.access = .indexScan index.id range false ∧
      ∃ entry ∈ admittedEntries table index row, range.contains entry.key = true

/--
A text index finds the terms of every search in every valid row that it admits,
and over an ascending column its ranges reach the rows that have them.
-/
theorem findsTerms_of_admits
    {builder : TableBuilder}
    (built : builder.build = .ok table)
    (member : index ∈ table.indexes)
    (isText : index.text = true)
    {column : IndexColumn}
    (isColumn : index.columns.head? = some column)
    {row : Row}
    (valid : row.validate table = .ok ())
    (admitted : index.admits row = true)
    {search : String}
    (hasTerm : tokenize search ≠ []) :
    index.FindsTerms table column row search ∧ (column.direction = .asc →
        index.RangesReach table column row search) := by
  have wellFormed := TableBuilder.build_wellFormed built
  have isAscending (ascending : column.direction = .asc) :
      ∀ entry ∈ index.columns, entry.direction = .asc := by
    obtain ⟨-, -, only, -, single, -⟩ := (wellFormed.indexes index member).text isText
    obtain rfl : only = column := by simpa [single] using isColumn
    simpa [single] using ascending
  have admits {predicate : Expr} {projection : Projection}
      {stats : TableStats} {sort : List SortKey} {compute : List Scalar}
      (holds : predicate.admits (extendRow row compute [] none) = true) :
      (matchContext table predicate projection stats sort compute).Admits
        row := by
    have isTrue := (Truth.admits_iff _).mp holds
    exact ⟨Row.keyable_of_validate wellFormed valid, Constraints.met_collectConstraints
        ((Expr.evaluateOver_eq_true_iff _).mp isTrue), isTrue⟩
  refine ⟨?_, fun ascending => ⟨?_, ?_⟩⟩
  · simp only [IndexDef.FindsTerms, evaluate_contains_iff hasTerm,
      exists_textEntry_iff wellFormed member isText isColumn admitted]
    constructor
    · rintro ⟨text, isValue, held⟩ term isTerm
      exact ⟨text, isValue, held term isTerm⟩
    · intro held
      obtain ⟨first, isFirst⟩ := exists_mem_of_ne_nil _ hasTerm
      obtain ⟨text, isValue, -⟩ := held first isFirst
      refine ⟨text, isValue, fun term isTerm => ?_⟩
      obtain ⟨other, isOther, inOther⟩ := held term isTerm
      obtain rfl := Value.str.inj (some.inj (isValue.symm.trans isOther))
      exact inOther
  · intro predicate projection stats sort compute holds found term isTerm range isRange
    obtain ⟨text, isValue, held⟩ := (evaluate_contains_iff hasTerm).mp found
    exact ⟨_, (mem_admittedEntries_text isText isColumn admitted).mpr
      ⟨text, term, isValue, held term isTerm, rfl⟩, contains_textRange wellFormed member
      isText (isAscending ascending) rfl (admits holds) isRange⟩
  · intro predicate projection stats sort compute candidate holds matched
    obtain ⟨term, range, isTerm, isRange, isAccess⟩ := exists_textRange matched
    have isSet := mem_keySets_of_textTerm wellFormed (admits holds) member isText isTerm
    exact ⟨range, isAccess, _, mem_admittedEntries.mpr
      ⟨admitted, _, isSet, rfl⟩, contains_textRange wellFormed member isText
      (isAscending ascending) rfl (admits holds) isRange⟩

end

/-! ## Later poems -/

/-- A table of poems with a text index over the words of the later ones. -/
def laterPoemsBuilder : TableBuilder :=
  { poemsBuilder .asc with
    indexes := [
      { id := 1
        name := "poems_words"
        columns := [("words", .asc)]
        predicate := some (.expr (.compare 0 .gt (.i64 5)))
        text := true }] }

/-- The text index of the later poems. -/
def laterPoemsWords : IndexDef := ⟨1, "poems_words", [⟨1, .asc⟩], false,
    some (.expr (.compare 0 .gt (.i64 5))), none, true⟩

/-- The table of poems with the index of the later ones. -/
def laterPoems : TableDef :=
  { poems .asc with indexes := [laterPoemsWords] }

theorem built_laterPoems :
    laterPoemsBuilder.build = .ok laterPoems := rfl

/-- A later poem is found by a word, and the range of the word reaches it. -/
theorem findsTerms_laterPoem :
    let _ : Platform := asciiPlatform
    laterPoemsWords.FindsTerms laterPoems ⟨1, .asc⟩ ⟨[.i64 7, .str "a b"]⟩ "b" ∧
      laterPoemsWords.RangesReach laterPoems ⟨1, .asc⟩ ⟨[.i64 7, .str "a b"]⟩ "b" := by
  intro _
  have hasTerm : tokenize "b" ≠ [] := by
    decide
  have valid : Row.validate ⟨[.i64 7, .str "a b"]⟩ laterPoems = .ok () := rfl
  have found := findsTerms_of_admits built_laterPoems
    (mem_singleton.mpr rfl) rfl rfl valid (by decide) hasTerm
  exact ⟨found.1, found.2 rfl⟩

/-- An earlier poem has the word and no entry. -/
theorem not_findsTerms_earlierPoem :
    ¬∀ (_ : Platform) (builder : TableBuilder) (table : TableDef)
      (index : IndexDef) (column : IndexColumn) (row : Row)
      (search : String),
      builder.build = .ok table → index ∈ table.indexes →
        index.text = true → index.columns.head? = some column →
          row.validate table = .ok () → tokenize search ≠ [] →
            index.FindsTerms table column row search ∧
              index.RangesReach table column row search := by
  intro always
  let _ : Platform := asciiPlatform
  have agrees := always asciiPlatform laterPoemsBuilder laterPoems
    laterPoemsWords ⟨1, .asc⟩ ⟨[.i64 4, .str "a b"]⟩ "b" built_laterPoems
    (mem_singleton.mpr rfl) rfl rfl rfl (by decide)
  have unheld : admittedEntries laterPoems laterPoemsWords
      ⟨[.i64 4, .str "a b"]⟩ = [] := by
    decide
  obtain ⟨entry, isEntry, -⟩ := agrees.1.mp (by decide +kernel) "b" (by decide +kernel)
  rw [unheld] at isEntry
  cases isEntry

end SlateOrm
