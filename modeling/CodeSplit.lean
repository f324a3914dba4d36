import CodeSplit.Asset
import CodeSplit.AssetGraph
import CodeSplit.AssetGraph.Scenario
import CodeSplit.Behavior
import CodeSplit.BuildMode
import CodeSplit.BundleGraph
import CodeSplit.BundleGraph.Tables
import CodeSplit.BundleGraph.Writer
import CodeSplit.BundleName
import CodeSplit.Bundler
import CodeSplit.Bundler.Session
import CodeSplit.Config
import CodeSplit.Config.Located
import CodeSplit.Config.Options
import CodeSplit.Config.Settings
import CodeSplit.Decision
import CodeSplit.Dependency
import CodeSplit.Diagnostic
import CodeSplit.Digest
import CodeSplit.Digest.Xxh3
import CodeSplit.Environment
import CodeSplit.Event
import CodeSplit.Fault
import CodeSplit.FeatureFlags
import CodeSplit.FileType
import CodeSplit.Fingerprint
import CodeSplit.Glob
import CodeSplit.Index
import CodeSplit.Index.Tables
import CodeSplit.Json
import CodeSplit.Json.Numeral
import CodeSplit.Json.Printer
import CodeSplit.Json.Reader
import CodeSplit.Json.Record
import CodeSplit.Keyed.Map
import CodeSplit.Keyed.Order
import CodeSplit.Keyed.Set
import CodeSplit.Path
import CodeSplit.Plan
import CodeSplit.Plan.Availability
import CodeSplit.Plan.Groups
import CodeSplit.Plan.ManualBundles
import CodeSplit.Plan.Reach
import CodeSplit.Plan.RequestLimit
import CodeSplit.Plan.Roots
import CodeSplit.Plan.SharedBundles
import CodeSplit.Proofs.AssetConservation
import CodeSplit.Proofs.AssetLookup
import CodeSplit.Proofs.BuildOutcomes
import CodeSplit.Proofs.BundleContents
import CodeSplit.Proofs.BundleStore
import CodeSplit.Proofs.ChunkNames
import CodeSplit.Proofs.CircleAvailability
import CodeSplit.Proofs.Consumers
import CodeSplit.Proofs.CopiedAssets
import CodeSplit.Proofs.CreatedRoots
import CodeSplit.Proofs.CrossRootEdges
import CodeSplit.Proofs.DependencyFingerprints
import CodeSplit.Proofs.Exploration
import CodeSplit.Proofs.FileNames
import CodeSplit.Proofs.Fingerprints
import CodeSplit.Proofs.GlobRuns
import CodeSplit.Proofs.GraphCalls
import CodeSplit.Proofs.GraphContents
import CodeSplit.Proofs.GraphIndex
import CodeSplit.Proofs.GroupAssignment
import CodeSplit.Proofs.GroupAvailability
import CodeSplit.Proofs.GroupCircles
import CodeSplit.Proofs.GroupClosure
import CodeSplit.Proofs.GroupDuplicates
import CodeSplit.Proofs.GroupListing
import CodeSplit.Proofs.GroupMembership
import CodeSplit.Proofs.GroupOrder
import CodeSplit.Proofs.GroupRetention
import CodeSplit.Proofs.Homogeneity
import CodeSplit.Proofs.IndexAgreement
import CodeSplit.Proofs.IndexTables
import CodeSplit.Proofs.JsonForms
import CodeSplit.Proofs.KeyPlaces
import CodeSplit.Proofs.Keyed
import CodeSplit.Proofs.LimitOutcome
import CodeSplit.Proofs.LimiterBudget
import CodeSplit.Proofs.LimiterRuns
import CodeSplit.Proofs.LinkOrder
import CodeSplit.Proofs.LiteralRules
import CodeSplit.Proofs.LoadWays
import CodeSplit.Proofs.LoadingCompleteness
import CodeSplit.Proofs.ManualExtraction
import CodeSplit.Proofs.ManualIdentities
import CodeSplit.Proofs.ManualPrecedence
import CodeSplit.Proofs.ManualSelection
import CodeSplit.Proofs.Membership
import CodeSplit.Proofs.OptionOverlays
import CodeSplit.Proofs.Outcomes
import CodeSplit.Proofs.OutputBundles
import CodeSplit.Proofs.Packing
import CodeSplit.Proofs.ParentGroups
import CodeSplit.Proofs.PassProgress
import CodeSplit.Proofs.PathComponents
import CodeSplit.Proofs.PathFingerprints
import CodeSplit.Proofs.PathResolution
import CodeSplit.Proofs.Placement
import CodeSplit.Proofs.PlanContents
import CodeSplit.Proofs.PlanGrowth
import CodeSplit.Proofs.PlanTargets
import CodeSplit.Proofs.PlannedBundles
import CodeSplit.Proofs.ReferenceClosure
import CodeSplit.Proofs.Reliance
import CodeSplit.Proofs.RemovalMeasure
import CodeSplit.Proofs.RemovalSteps
import CodeSplit.Proofs.RemovalTermination
import CodeSplit.Proofs.Reordering
import CodeSplit.Proofs.RepeatedBundling
import CodeSplit.Proofs.RequestCounts
import CodeSplit.Proofs.RequestLimiting
import CodeSplit.Proofs.RequestedBundles
import CodeSplit.Proofs.ReuseSoundness
import CodeSplit.Proofs.ReusedRemoval
import CodeSplit.Proofs.RootCollection
import CodeSplit.Proofs.RootWalks
import CodeSplit.Proofs.SharedBundles
import CodeSplit.Proofs.SharedRemoval
import CodeSplit.Proofs.SingleFilePlans
import CodeSplit.Proofs.StoreCalls
import CodeSplit.Proofs.StoreTables
import CodeSplit.Proofs.TargetFingerprints
import CodeSplit.Proofs.TargetOwners
import CodeSplit.Proofs.TargetPasses
import CodeSplit.Proofs.UnloadedBundles
import CodeSplit.Proofs.Utf8
import CodeSplit.Proofs.WalkExactness
import CodeSplit.Proofs.WrittenPlans
import CodeSplit.Report
import CodeSplit.Target
import CodeSplit.Text.CaseTable
import CodeSplit.Text.LowerCase
import CodeSplit.Total
import CodeSplit.Triggers
import CodeSplit.View.AssetGraph
import CodeSplit.View.BundleGraph
import CodeSplit.View.Config
import CodeSplit.View.Plan
import CodeSplit.View.Report
import CodeSplit.Walk
