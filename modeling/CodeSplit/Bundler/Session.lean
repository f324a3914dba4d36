import CodeSplit.Bundler

/-!
Bundling one pass at a time, to look at what is there between the passes. The plan and the sets that
the passes hand on are kept, and may be changed before the next pass.
-/
namespace CodeSplit.Bundler

structure Session where
  assets : AssetGraph
  config : Config := {}
  index : Index := Index.ofGraph assets
  /-- The entries of each target, by its name. -/
  entries : KeyMap String (List Entry) := ∅
  plan : Plan := {}
  reach : Reach := ∅
  consumers : KeyMap AssetKey (KeySet AssetKey) := ∅
  /-- Assets that were moved into manual bundles. -/
  claimed : KeySet AssetKey := ∅
  bundles : BundleGraph := {}

namespace Session

variable (s : Session)

def findEntries : Report Session := do
  let entries ← .ofExcept (s.index.entriesByTarget s.assets)
  .event (Index.entriesEvent entries)
  return { s with entries }

/-- Starts the plan of a target, or of the first one if none is named. -/
def collectRoots (target : Option String) : Report Session := do
  let chosen := match target with
    | some name => s.entries.get? name
    | none => s.entries.values.head?
  let entries := chosen.getD []
  let roots ← s.index.collectRoots entries
  return { s with plan := { target := (entries.head?.map Entry.target).getD {}, roots } }

def walkRoots : Report Session := do
  let walks ← s.index.walkRoots s.plan.roots
  return { s with
    plan := { s.plan with edges := walks.edges, reused := walks.reused }
    reach := walks.reach }

def assignGroups : Report Session := do
  return { s with plan := ← s.plan.assignGroups }

def findConsumers : Report Session := do
  return { s with consumers := ← s.plan.consumers s.index s.reach }

def extractManualBundles : Report Session := do
  let (plan, e) ← s.plan.extractManualBundles s.index s.config s.consumers
  return { s with plan, consumers := e.consumers, claimed := e.claimed }

def shareAssets : Report Session := do
  return { s with plan := ← s.plan.shareAssets s.index s.config s.claimed s.consumers }

def limitRequests : Report Session := do
  return { s with plan := ← s.plan.limitRequests s.index s.config }

/-- All passes for the entries of a target. -/
def planTarget (target : Option String) : Report Session := do
  let entries := (target.bind s.entries.get?).getD []
  return { s with plan := ← s.index.planTarget s.config entries }

def write : Report Session := do
  let (bundles, report) := s.bundles.writePlan s.index s.config s.plan
  report
  return { s with bundles }

end Session

end CodeSplit.Bundler
