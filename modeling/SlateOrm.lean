import SlateOrm.BulkWrites
import SlateOrm.ConcurrentUniqueness
import SlateOrm.DeletionGraph
import SlateOrm.FileLease
import SlateOrm.HiddenRows
import SlateOrm.KeySpace
import SlateOrm.LeaseProtocol
import SlateOrm.MemoryStoreIsolation
import SlateOrm.MigrationComplete
import SlateOrm.PointGets
import SlateOrm.PredicateAtomicity
import SlateOrm.ReplicaReads
import SlateOrm.PurgedRows
import SlateOrm.ReturnedRows
import SlateOrm.RowConstraints
import SlateOrm.RowRoundTrip
import SlateOrm.SchemaEvolution
import SlateOrm.SessionRegistry
import SlateOrm.TupleOrder
import SlateOrm.TupleSpelling
import SlateOrm.LikePatterns
import SlateOrm.PredicateMeaning
import SlateOrm.TextIndexes
import SlateOrm.Aggregates
import SlateOrm.AggregateValues
import SlateOrm.GroupedRows
import SlateOrm.PagedReads
import SlateOrm.RowKeys
import SlateOrm.CoveringRows
import SlateOrm.TopRows
import SlateOrm.Joins
import SlateOrm.JoinReads
import SlateOrm.GroupedJoins
import SlateOrm.GroupedCursors
import SlateOrm.CatalogInsertion
import SlateOrm.DecimalNumerals
import SlateOrm.DecimalText
import SlateOrm.PrefixRanges
import SlateOrm.ColumnBits
import SlateOrm.PartialDecode
import SlateOrm.SortedRuns
import SlateOrm.WindowFrames
import SlateOrm.WindowValues
import SlateOrm.WindowResults
import SlateOrm.EagerLoading
import SlateOrm.SessionWrites
import SlateOrm.StatementProgress
import SlateOrm.SessionAtomicity
import SlateOrm.WriteCounts
import SlateOrm.Batches
import SlateOrm.Fingerprint
import SlateOrm.RelationPaths
import SlateOrm.Semijoins
import SlateOrm.KeyShapes
import SlateOrm.TenantScopes
import SlateOrm.RelatedLevels
import SlateOrm.ReplacementTemplates
import SlateOrm.GregorianCalendar
import SlateOrm.CivilDays
import SlateOrm.TimeTruncation
import SlateOrm.KeylessGroups
import SlateOrm.LayoutRecords
import SlateOrm.JoinAddresses
import SlateOrm.PolicyPredicates
import SlateOrm.SchemaClaims
import SlateOrm.HashJoins
import SlateOrm.HashChains
import SlateOrm.NestedLoops
import SlateOrm.TermCounter
import SlateOrm.CascadeGrants
