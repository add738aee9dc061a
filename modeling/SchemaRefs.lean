import SchemaRefs.Cache.Basic
import SchemaRefs.Cache.Fact
import SchemaRefs.CommandLine.Arguments
import SchemaRefs.Context
import SchemaRefs.Decimal.Shortest
import SchemaRefs.Document.Allocation
import SchemaRefs.Document.Basic
import SchemaRefs.Document.Facts
import SchemaRefs.Document.Layout
import SchemaRefs.Document.References
import SchemaRefs.Error
import SchemaRefs.Json.Basic
import SchemaRefs.Json.Parser
import SchemaRefs.Json.Printer
import SchemaRefs.Location
import SchemaRefs.Main
import SchemaRefs.NodeId
import SchemaRefs.Path
import SchemaRefs.Proofs.AdditiveFacts
import SchemaRefs.Proofs.Agreement
import SchemaRefs.Proofs.Bisimulation
import SchemaRefs.Proofs.CacheIndex
import SchemaRefs.Proofs.CacheLaws
import SchemaRefs.Proofs.CanonicalPaths
import SchemaRefs.Proofs.ChainDocuments
import SchemaRefs.Proofs.Chains
import SchemaRefs.Proofs.ColumnCounts
import SchemaRefs.Proofs.ColumnMembers
import SchemaRefs.Proofs.ColumnSteps
import SchemaRefs.Proofs.Completeness
import SchemaRefs.Proofs.Containment
import SchemaRefs.Proofs.CrossLinks
import SchemaRefs.Proofs.DefinitionReferences
import SchemaRefs.Proofs.DiscoveredQueries
import SchemaRefs.Proofs.Drafts
import SchemaRefs.Proofs.Execution
import SchemaRefs.Proofs.FilterEnvironments
import SchemaRefs.Proofs.FollowedChains
import SchemaRefs.Proofs.Histories
import SchemaRefs.Proofs.Holders
import SchemaRefs.Proofs.Inferences
import SchemaRefs.Proofs.Initialization
import SchemaRefs.Proofs.LinkCounts
import SchemaRefs.Proofs.ListedPaths
import SchemaRefs.Proofs.ListedSites
import SchemaRefs.Proofs.Loading
import SchemaRefs.Proofs.Lockstep
import SchemaRefs.Proofs.LongChains
import SchemaRefs.Proofs.Lookups
import SchemaRefs.Proofs.Meanings
import SchemaRefs.Proofs.MemberParents
import SchemaRefs.Proofs.NamedSources
import SchemaRefs.Proofs.NavigableSources
import SchemaRefs.Proofs.Nesting
import SchemaRefs.Proofs.Numbering
import SchemaRefs.Proofs.OverlookedReferences
import SchemaRefs.Proofs.Ownership
import SchemaRefs.Proofs.PathSpellings
import SchemaRefs.Proofs.PathTexts
import SchemaRefs.Proofs.Places
import SchemaRefs.Proofs.Policies
import SchemaRefs.Proofs.Preparation
import SchemaRefs.Proofs.QueryNumbers
import SchemaRefs.Proofs.QuerySkeleton
import SchemaRefs.Proofs.QueryTrees
import SchemaRefs.Proofs.ReferenceLists
import SchemaRefs.Proofs.ReferenceSearch
import SchemaRefs.Proofs.ReportAccounts
import SchemaRefs.Proofs.Requests
import SchemaRefs.Proofs.ResultOwners
import SchemaRefs.Proofs.Retention
import SchemaRefs.Proofs.Rules
import SchemaRefs.Proofs.Scoping
import SchemaRefs.Proofs.SegmentFilters
import SchemaRefs.Proofs.SegmentPaths
import SchemaRefs.Proofs.SemanticLocations
import SchemaRefs.Proofs.Shapes
import SchemaRefs.Proofs.SiteKinds
import SchemaRefs.Proofs.SourceLookups
import SchemaRefs.Proofs.SpelledInspections
import SchemaRefs.Proofs.SpelledWalks
import SchemaRefs.Proofs.Subqueries
import SchemaRefs.Proofs.Termination
import SchemaRefs.Proofs.Tolerance
import SchemaRefs.Proofs.Topologies
import SchemaRefs.Proofs.TopologyLinks
import SchemaRefs.Proofs.ValidWalks
import SchemaRefs.Proofs.Visits
import SchemaRefs.Proofs.Walks
import SchemaRefs.Proofs.WellFormedTopologies
import SchemaRefs.Report.Basic
import SchemaRefs.Report.Render
import SchemaRefs.Resolution
import SchemaRefs.Session.Basic
import SchemaRefs.Session.Describe
import SchemaRefs.Session.Head
import SchemaRefs.Session.Inquiry
import SchemaRefs.Session.Inspect
import SchemaRefs.Session.Navigation
import SchemaRefs.Session.Origin
import SchemaRefs.Site
import SchemaRefs.Snapshot
import SchemaRefs.Table
import SchemaRefs.Topology.Basic
import SchemaRefs.Topology.Build
import SchemaRefs.Topology.Columns
import SchemaRefs.Topology.Members
import SchemaRefs.Topology.Sources
