import SlateOrm.ReferencingRows
import SlateOrm.UndisturbedWrites

namespace SlateOrm

/-!
# Rows that a write matches

A write by predicate collects the rows that it is about before it changes the
first of them.  These rows are stored, each under a key of its own, whatever
path the plan of the search takes.
-/

variable [Platform]

section

variable
  {catalog : Catalog}
  {wellFormed : catalog.WellFormed}
  {snapshot : Snapshot}

/-! ## Paths that succeed -/

theorem current_of_decodes
    (wellFormed : catalog.WellFormed)
    {shape : RowShape} {record : CatalogRow catalog}
    (isTable : record.table = shape.table)
    {primaryKey : List Value} {asked : Option ColumnSet}
    (asks : shape.Asks asked)
    (decodesAny : ∃ ordinal ∈ shape.table.bodyColumns, ordinal ∈ shape.decodeColumns)
    {row : Row}
    (decodes : decodeRowColumns shape.table primaryKey record.body asked = .ok row) :
    shape.table.Current := by
  obtain ⟨ordinal, inBody, isDecoded⟩ := decodesAny
  have isAsked : isWanted asked ordinal = true := by
    rcases asks with rfl | rfl
    · rw [wanted]
      split
      · rfl
      · exact decide_eq_true isDecoded
    · exact decide_eq_true isDecoded
  rw [← isTable] at inBody decodes ⊢
  have tableWellFormed := wellFormed.tables _ record.inCatalog
  exact current_of_decodeRowColumns tableWellFormed
    (Row.codes_of_validate tableWellFormed record.valid)
    ⟨ordinal, inBody, isAsked⟩ decodes

variable {table : TableDef} {rows : List Row}

section

variable
  (consistent : (catalog.layout wellFormed).Consistent (catalog.view snapshot.get))

include consistent

/-- A path that yields a row can make the rows of its table. -/
theorem Access.reads_of_origin
    {shape : RowShape}
    (inCatalog : shape.table ∈ catalog.tables)
    {context : MatchContext}
    (isTable : context.table = shape.table)
    {access : Access} (readsFrom : context.ReadsFrom access)
    (decodesAny : shape.table.bodyColumns ≠ [] →
      ∃ ordinal ∈ shape.table.bodyColumns, ordinal ∈ shape.decodeColumns)
    {row : Row} (origin : Origin snapshot shape access row) :
    access.Reads wellFormed snapshot shape.table := by
  refine ⟨inCatalog, consistent, fun uncovered _ _ => ?_⟩
  by_cases noBody : shape.table.bodyColumns = []
  · intro ordinal inBody
    rw [noBody] at inBody
    cases inBody
  · cases origin with
    | stored reads found asks decodes =>
        rw [← isTable] at reads inCatalog
        obtain ⟨record, _, isRecord, rfl, _⟩ := record_of_readsKey
          consistent.comprises inCatalog readsFrom reads found
        exact current_of_decodes wellFormed (isRecord.trans isTable) asks
          (decodesAny noBody) decodes
    | fetched reads found asks decodes =>
        obtain ⟨record, _, isRecord, _, rfl⟩ :=
          exists_record_of_rowKey consistent.comprises inCatalog found
        exact current_of_decodes wellFormed isRecord asks (decodesAny noBody) decodes
    | entry reads =>
        obtain ⟨ranges, _, _, _, isAccess, _⟩ := reads.found
        exact absurd isAccess (uncovered _ _)

/-- A plan that collects rows comes to stored rows, and answers each once. -/
theorem visited_of_collect
    (inCatalog : table ∈ catalog.tables)
    {filter : Expr} {query : Query}
    (uncomputed : query.compute = [])
    {stats : TableStats} {plan : Plan} {hidden : List Ordinal}
    (isPlan : plan = query.planned table filter stats hidden)
    (decodesAny : table.bodyColumns ≠ [] → ∃ ordinal ∈ table.bodyColumns,
      ordinal ∈ planOutputColumns table filter query.projection query.sort)
    (collected : (source snapshot (rowShape table plan query.compute)
      plan.order plan.access).collect = .ok rows) :
    ∃ visited : List (CatalogRow catalog), rows.map Row.canonical =
        visited.filterMap (query.selectOf table filter) ∧
      (∀ record ∈ visited, record.StoredIn snapshot table) ∧
      visited.Pairwise (fun record other =>
        (query.selectOf table filter record).isSome → record.key ≠ other.key) := by
  cases rows with
  | nil => exact ⟨[], rfl, nofun, .nil⟩
  | cons first rest =>
      have origin := (all_source snapshot (rowShape table plan query.compute)
        plan.order plan.access).of_mem_collect collected first (List.mem_cons_self ..)
      have outputs : plan.outputColumns =
          planOutputColumns table filter query.projection query.sort :=
        isPlan ▸ outputColumns_planHinted ..
      have readsFrom : (matchContext table filter query.projection stats
          query.sort query.compute).ReadsFrom plan.access := by
        rw [isPlan]
        exact readsFrom_planHinted ..
      have readable : plan.access.Reads wellFormed snapshot table := by
        refine Access.reads_of_origin consistent inCatalog rfl readsFrom ?_ origin
        intro hasBody
        obtain ⟨ordinal, inBody, isOutput⟩ := decodesAny hasBody
        exact ⟨ordinal, inBody, Finset.mem_union_left _ (outputs ▸ isOutput)⟩
      obtain ⟨records, enumerates⟩ := exists_enumerates consistent inCatalog
      obtain ⟨found, visited, isFound, areVisited, storedIn, once, -⟩ := collect_visited
        enumerates stats (fun record stored => (Access.trusted_of_uncomputed
        uncomputed).serves (wellFormed.tables table inCatalog) readsFrom
        (stored.ofTable ▸ record.valid)) readable isPlan
      cases collected.symm.trans isFound
      exact ⟨visited, areVisited, storedIn, once⟩

/-- The whole rows that a plan collects are stored, each once. -/
theorem stored_of_openCursor
    (inCatalog : table ∈ catalog.tables)
    {limits : ExecutionLimits} {filter : Expr} {query : Query}
    (uncomputed : query.compute = [])
    (whole : query.projection = .all)
    (unsorted : query.sort = [])
    {stats : TableStats} {cursor : Cursor Row}
    (opened : openCursor limits snapshot table
      (query.planned table filter stats []) query = .ok cursor)
    (collected : cursor.collect = .ok rows) :
    ∃ visited : List (CatalogRow catalog),
      List.Forall₂ (fun row record => row.Same record.row) rows visited ∧
      (∀ record ∈ visited, record.StoredIn snapshot table ∧
        filter.admits record.row = true) ∧
      visited.Pairwise (fun record other => record.key ≠ other.key) := by
  have collected' : (source snapshot
      (rowShape table (query.planned table filter stats []) query.compute)
      (query.planned table filter stats []).order
      (query.planned table filter stats []).access).collect = .ok rows := by
    rw [openCursor] at opened
    split at opened
    · cases opened
    · rw [sort_planned unsorted] at opened
      cases opened
      have isWhole : (fun row => conceal row
          (query.planned table filter stats []).concealed) = id :=
        funext conceal_nil
      rw [Cursor.collect_map, isWhole, List.map_id_fun] at collected
      exact (id_map _).symm.trans collected
  have decodesAll : ∀ ordinal ∈ table.bodyColumns, ordinal ∈
      planOutputColumns table filter query.projection query.sort := by
    intro ordinal inBody
    rw [whole]
    exact Finset.mem_range.mpr
      ((wellFormed.tables table inCatalog).mem_bodyColumns.mp inBody).1
  obtain ⟨visited, areVisited, storedIn, once⟩ := visited_of_collect
    consistent inCatalog uncomputed rfl
    (fun hasBody => by
      obtain ⟨ordinal, inBody⟩ := List.exists_mem_of_ne_nil _ hasBody
      exact ⟨ordinal, inBody, decodesAll ordinal inBody⟩) collected'
  have isSelected : ∀ record : CatalogRow catalog, query.selectOf table filter record =
        if filter.admits record.row then some record.row.canonical else
          none := by
    intro record
    rw [Query.selectOf, Query.select_whole uncomputed whole]
    split <;> rfl
  refine ⟨visited.filter (fun record => filter.admits record.row),
    forall₂_of_map_eq (areVisited.trans ?_), ?_, ?_⟩
  · rw [← List.filterMap_eq_map, List.filterMap_filter]
    exact List.filterMap_congr (fun record _ => isSelected record)
  · intro record member
    obtain ⟨inVisited, admitted⟩ := List.mem_filter.mp member
    exact ⟨storedIn record inVisited, admitted⟩
  · refine (once.sublist List.filter_sublist).imp_of_mem
      (fun {record other} member _ apart => apart ?_)
    rw [isSelected, if_pos (List.mem_filter.mp member).2]
    rfl

end

theorem RecordTransaction.stored_of_matchingRows
    {records : RecordTransaction}
    (consistent : (catalog.layout wellFormed).Consistent (catalog.view snapshot.get))
    {context : SecurityContext}
    (inCatalog : table ∈ catalog.tables)
    {predicate : Expr} {atMost : Option Nat}
    (found : records.matchingRows context table predicate atMost snapshot = .ok rows) :
    ∃ visited : List (CatalogRow catalog),
      List.Forall₂ (fun row record => row.Same record.row) rows visited ∧
      (∀ record ∈ visited, record.StoredIn snapshot table) ∧
      visited.Pairwise (fun record other => record.key ≠ other.key) := by
  obtain ⟨cursor, executed, matched⟩ := bind_eq_ok.mp found
  obtain ⟨plan, planned, opened⟩ := opened_of_executeForWrite executed
  obtain ⟨rowFilter, -, rfl⟩ := planned_of_planSecured planned
  have isPlanned : Query.planned { filter := predicate } table
      (predicate.andThen rowFilter) (records.reads.statistics table) [] =
      planHinted table (predicate.andThen rowFilter) .ascending .all
        (records.reads.statistics table) [] none [] := by
    rw [Query.planned, ← concealed_planHinted]
  obtain ⟨visited, beside, stored, apart⟩ := stored_of_openCursor consistent inCatalog
    rfl rfl rfl (isPlanned ▸ opened) (collect_of_collectMatched matched)
  exact ⟨visited, beside, fun record member => (stored record member).1, apart⟩

end

end SlateOrm
