import CodeSplit.BundleGraph.Writer
import CodeSplit.Plan.Availability
import CodeSplit.Plan.ManualBundles
import CodeSplit.Plan.RequestLimit

/-!
The default bundler. It has the ideal graph built, that is, an asset graph is indexed and the
entries of each target become a plan, pass by pass; then the plans are written into a bundle graph.
-/
namespace CodeSplit

namespace Index

/-- The plan of a target: its roots and where their walks end, before anything is placed. -/
def walkedPlan (i : Index) (target : Target) (entries : List Entry) : Report (Plan × Reach) := do
  let roots ← i.collectRoots entries
  let walks ← i.walkRoots roots
  let plan ← Plan.assignGroups { target, roots, edges := walks.edges, reused := walks.reused }
  return (plan, walks.reach)

/-- The plan for the entries of one target. -/
def planTarget (i : Index) (config : Config) (entries : List Entry) : Report Plan := do
  let target ← match entries.head? with
    | some entry => pure entry.target
    | none => .ofExcept (.error (.failure .noEntries))
  let (walked, reach) ← i.walkedPlan target entries
  let consumers ← walked.consumers i reach
  let (extracted, e) ← walked.extractManualBundles i config consumers
  let placed ← extracted.shareAssets i config e.claimed e.consumers
  placed.limitRequests i config

end Index

namespace Bundler

structure Stats where
  assets : Nat := 0
  dependencies : Nat := 0
  targets : Nat := 0
  bundleRoots : Nat := 0
  sharedBundles : Nat := 0
  manualBundles : Nat := 0
  deriving DecidableEq, Repr, Inhabited

structure Build where
  index : Index
  /-- A plan for each target, in the order of their names. -/
  plans : List Plan
  stats : Stats
  deriving DecidableEq, Repr, Inhabited

def Stats.of (i : Index) (targets : Nat) (plans : List Plan) : Stats where
  assets := i.size
  dependencies := i.dependencyCount
  targets
  bundleRoots := total (plans.map fun p => p.roots.size)
  sharedBundles := total (plans.map fun p => p.liveSharedBundles.length)
  manualBundles := total (plans.map fun p => p.manualBundles.size)

/-- The plans of all targets; a failure names the target in which it arose. -/
def planTargets (config : Config) (g : AssetGraph) : Report Build := do
  let index := Index.ofGraph g
  .event index.indexedEvent
  let entries ← .ofExcept (index.entriesByTarget g)
  .event (Index.entriesEvent entries)
  .event (.counts "ideal graph: input stats" [
    ("assets", index.size),
    ("dependencies", index.dependencyCount),
    ("targets", entries.size)])
  let plans ← entries.entries.mapM fun (name, entries) =>
    (index.planTarget config entries).mapFault (Fault.inTarget name)
  return { index, plans, stats := .of index entries.size plans }

def build (config : Config) (g : AssetGraph) : Report Build :=
  let planned := planTargets config g
  do
    let build ← planned
    .event (.counts "ideal graph: built" [
      ("bundle_roots", build.stats.bundleRoots),
      ("shared_bundles", build.stats.sharedBundles),
      ("manual_bundles", build.stats.manualBundles),
      ("decisions", planned.decisions.length)])
    return build

/-- Writes plans in order until one fails. -/
def writePlans (i : Index) (config : Config) : List Plan → BundleGraph → BundleGraph × Report Unit
  | [], g => (g, pure ())
  | p :: rest, g =>
    let (next, first) := g.writePlan i config p
    match first.result with
    | .error _ => (next, first)
    | .ok () =>
      let (final, others) := writePlans i config rest next
      (final, do first; others)

def bundledEvent (stats : Stats) (bundles : Nat) : Event where
  level := .info
  message := "bundled asset graph"
  fields := [
    ("assets", .number stats.assets),
    ("targets", .number stats.targets),
    ("bundle_roots", .number stats.bundleRoots),
    ("shared_bundles", .number stats.sharedBundles),
    ("manual_bundles", .number stats.manualBundles),
    ("bundles", .number bundles)]

/-- Bundles an asset graph into a bundle graph, which may hold bundles already. The decisions are
added to those of the bundle graph if everything could be written. -/
def bundle (config : Config) (g : AssetGraph) (into : BundleGraph) : BundleGraph × Report Unit :=
  let built := build config g
  match built.result with
  | .error e => (into, ⟨built.notes, .error e⟩)
  | .ok b =>
    let (written, report) := writePlans b.index config b.plans into
    match report.result with
    | .error e => (written, ⟨built.notes ++ report.notes, .error e⟩)
    | .ok () =>
      ({ written with decisions := written.decisions.pushAll built.decisions },
        ⟨built.notes ++ report.notes ++ [.event (bundledEvent b.stats written.bundles.length)],
          .ok ()⟩)

end Bundler

end CodeSplit
