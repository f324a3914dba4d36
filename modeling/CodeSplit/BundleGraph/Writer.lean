import CodeSplit.BundleGraph
import CodeSplit.Config
import CodeSplit.Index
import CodeSplit.Plan
import CodeSplit.Report

/-!
The bundle graph writer, which adds the plan of a target: first the bundles, then the groups that
load them, then the edges between bundles. What was written before a fault stays in the graph.
-/
namespace CodeSplit

/-- What a written bundle was planned as. -/
inductive BundleOrigin where
  /-- The bucket of a root. -/
  | bucket (root : AssetKey) (fileType : FileType)
  /-- A shared or manual bundle that some roots load. -/
  | loaded (fileType : FileType) (consumers : KeySet AssetKey)
  deriving DecidableEq, Repr

/-- A bundle in the graph. -/
structure WrittenBundle where
  origin : BundleOrigin
  id : String
  node : NodeId
  deriving DecidableEq, Repr

def Root.behavior (r : Root) : Option Behavior :=
  match r.isInline, r.triggers.isolated with
  | true, true => some .inlineIsolated
  | true, false => some .inline
  | false, true => some .isolated
  | false, false => none

namespace Plan

variable (p : Plan) (i : Index) (config : Config)

/-- What the names of the bundles of a root start with. -/
def stem (key : AssetKey) (root : Root) : Except Fault String := do
  let asset ← i.asset key
  return match root.chunkName with
    | some name => if config.useChunkNames then name else asset.fileStem
    | none => asset.fileStem

/-- The bundle of a bucket. The one of the root's own type is the entry point of the root. -/
def bucketBundle (key : AssetKey) (root : Root) (fileType : FileType) (assets : KeySet AssetKey) :
    Except Fault Bundle := do
  let stem ← stem i config key root
  let assetIds ← i.idsOf assets
  let size ← i.totalSize assets
  let id := BundleName.bundleId assetIds fileType p.target.distDir
  let isMain := decide (fileType = p.bucketType key root.fileType)
  let needsStableName := isMain && root.needsStableName
  let name ← if needsStableName then pure (BundleName.stableName stem fileType)
    else BundleName.hashedName stem id fileType
  return {
    id, name, fileType, assetIds, needsStableName, size
    env := root.env
    target := p.target
    kind := .root
    entryAssetIds := if isMain then [root.assetId] else []
    mainEntryId := if isMain then some root.assetId else none
    behavior := root.behavior
    isSplittable := root.isSplittable }

/-- The environment of the first consumer that is a root, or else of the first asset. -/
def consumerEnv (consumers assets : KeySet AssetKey) : Except Fault Environment :=
  match consumers.toList.findSome? p.root? with
  | some root => .ok root.env
  | none =>
    match assets.toList.head? with
    | some key => Asset.env <$> i.asset key
    | none => .error (.failure .emptyBundle)

def sharedBundle (b : SharedBundle) : Except Fault Bundle := do
  if b.consumers.size < 2 then
    throw (.failure (.tooFewConsumers b.assets.size b.consumers.size))
  let assetIds ← i.idsOf b.assets
  let id := BundleName.bundleId assetIds b.fileType p.target.distDir
  let name ← BundleName.sharedName id b.fileType
  let env ← p.consumerEnv i b.consumers b.assets
  return {
    id, name, env, assetIds
    fileType := b.fileType
    target := p.target
    kind := .shared
    size := b.size }

def manualBundle (key : ManualKey) (b : ManualBundle) : Except Fault Bundle := do
  let id := BundleName.manualBundleId key.qualifiedName key.fileType p.target.distDir
  let name ← BundleName.hashedName key.qualifiedName id key.fileType
  let env ← p.consumerEnv i b.consumers b.assets
  let size ← i.totalSize b.assets
  let assetIds ← i.idsOf b.assets
  return {
    id, name, env, size, assetIds
    fileType := key.fileType
    target := p.target
    kind := .manual
    declaration := some key.name }

/-- The bundles to write, in order. -/
def plannedBundles : List (BundleOrigin × Except Fault Bundle) :=
  let buckets := p.roots.entries.flatMap fun (key, root) =>
    ((p.buckets key).entries.filter fun e => !e.2.isEmpty).map fun (fileType, assets) =>
      (BundleOrigin.bucket key fileType, p.bucketBundle i config key root fileType assets)
  let shared := p.liveSharedBundles.map fun b =>
    (BundleOrigin.loaded b.fileType b.consumers, p.sharedBundle i b)
  let manual := p.manualBundles.entries.map fun (key, b) =>
    (BundleOrigin.loaded key.fileType b.consumers, p.manualBundle i key b)
  buckets ++ shared ++ manual

end Plan

namespace BundleGraph

/-- Adds bundles until one cannot be added. -/
def addBundles : List (BundleOrigin × Except Fault Bundle) → BundleGraph →
    BundleGraph × Except Fault (List WrittenBundle)
  | [], g => (g, .ok [])
  | (origin, planned) :: rest, g =>
    match planned >>= fun bundle => (·, bundle.id) <$> g.addBundle bundle with
    | .error e => (g, .error e)
    | .ok ((next, node), id) =>
      let (final, written) := addBundles rest next
      (final, (⟨origin, id, node⟩ :: ·) <$> written)

end BundleGraph

/-- The nodes of the bundles of a plan. -/
structure WrittenPlan where
  plan : Plan
  bundles : List WrittenBundle
  deriving DecidableEq, Repr

namespace WrittenPlan

variable (w : WrittenPlan)

/-- The bundles of some roots. -/
def bundlesOf (roots : KeySet AssetKey) : List WrittenBundle :=
  w.bundles.filter fun b =>
    match b.origin with
    | .bucket root _ => decide (root ∈ roots)
    | .loaded _ _ => false

/-- The shared and manual bundles that some of the roots load. -/
def loadedBy (roots : KeySet AssetKey) : List WrittenBundle :=
  w.bundles.filter fun b =>
    match b.origin with
    | .bucket _ _ => false
    | .loaded _ consumers => consumers.meets roots

/-- The bundle of a root that has the assets of a type. -/
def bucketNode? (root : AssetKey) (fileType : FileType) : Option NodeId :=
  let origin := BundleOrigin.bucket root (w.plan.bucketType root fileType)
  (w.bundles.find? fun b => b.origin = origin).map WrittenBundle.node

/-- The bundle of a root that has the root asset. -/
def mainNode? (root : AssetKey) : Option NodeId :=
  (w.plan.root? root).bind fun r => w.bucketNode? root r.fileType

/-- The bundle of a root from which something of a type is loaded. -/
def sourceNode? (root : AssetKey) (fileType : FileType) : Option NodeId :=
  w.bucketNode? root fileType <|> w.mainNode? root

def sortedNodes (bundles : List WrittenBundle) : List NodeId :=
  (arrange KeyOrder.before (bundles.map fun b => (b.id, b.node))).map Prod.snd

/-- The bundles that a group loads, in load order: what its members load, then their own bundles,
and last the bundle of the group's root. -/
def groupNodes (group : AssetKey) : List NodeId :=
  let own := w.plan.ownMembers group
  let main := w.mainNode? group
  let referenced := w.loadedBy (w.plan.members group) ++
    w.bundlesOf (w.plan.reusedMembers group)
  let others := (w.bundlesOf own).filter fun b => some b.node ≠ main
  sortedNodes referenced ++ sortedNodes others ++ main.toList

def groupOf (root : Root) : BundleGroup where
  id := "bundle_group:" ++ w.plan.target.name ++ root.assetId
  entryAssetId := root.assetId
  target := w.plan.target

/-- Edges between bundles: to shared and manual bundles, and to the bundles of reused roots. -/
def loadEdges : List BundleGraph.Edge :=
  let loads := w.bundles.flatMap fun b =>
    match b.origin with
    | .bucket _ _ => []
    | .loaded fileType consumers => consumers.toList.filterMap fun c =>
      (w.sourceNode? c fileType).map fun source => ⟨source, b.node, .references⟩
  let reuses := w.plan.reused.toList.flatMap fun (reuser, reused) =>
    match (w.plan.root? reused).bind fun r => w.sourceNode? reuser r.fileType with
    | none => []
    | some source => (w.bundlesOf (.singleton reused)).map fun b => ⟨source, b.node, .references⟩
  loads ++ reuses

/-- The edge for a dependency between roots: to the group that is loaded on demand, or to the bundle
that is loaded along. -/
def dependencyEdge? (i : Index) (groups : KeyMap AssetKey NodeId) (e : BundleEdge) :
    Except Fault (Option BundleGraph.Edge) := do
  let asset ← i.asset e.declaredBy
  return (w.sourceNode? e.source asset.fileType).bind fun source =>
    if e.triggers.createsGroup then
      (groups.get? e.target).map fun group => ⟨source, group, .async⟩
    else (w.mainNode? e.target).map fun target => ⟨source, target, .references⟩

def dependencyEdges (i : Index) (groups : KeyMap AssetKey NodeId) :
    Except Fault (List BundleGraph.Edge) := do
  return (← w.plan.edges.mapM (w.dependencyEdge? i groups)).filterMap id

end WrittenPlan

namespace BundleGraph

def linkAll (g : BundleGraph) (edges : List Edge) : BundleGraph :=
  edges.foldl (fun g e => g.link e.source e.target e.edgeType) g

/-- Adds the group of a root, which must load exactly one bundle that the root enters by. -/
def writeGroup (g : BundleGraph) (w : WrittenPlan) (key : AssetKey) (root : Root) :
    BundleGraph × Except Fault NodeId :=
  let group := w.groupOf root
  let (added, node) := g.addGroup group
  let start := if root.triggers.entry then [⟨rootNode, node, .bundle⟩] else []
  let loads := (w.groupNodes key).map fun n => ⟨node, n, .bundle⟩
  let linked := added.linkAll (start ++ loads)
  let entryBundles := (linked.bundlesInGroup group.id true).filter fun b =>
    decide (root.assetId ∈ b.entryAssetIds)
  (linked,
    if entryBundles.length = 1 then .ok node
    else .error (.failure (.entryBundles root.assetId entryBundles.length)))

/-- Adds the groups of the given roots until one fails. -/
def writeGroups (w : WrittenPlan) : List AssetKey → BundleGraph →
    BundleGraph × Except Fault (KeyMap AssetKey NodeId)
  | [], g => (g, .ok ∅)
  | key :: rest, g =>
    match w.plan.root? key with
    | none => (g, .error (.failure .missingGroupRoot))
    | some root =>
      match g.writeGroup w key root with
      | (next, .error e) => (next, .error e)
      | (next, .ok node) =>
        let (final, groups) := writeGroups w rest next
        (final, (·.insert key node) <$> groups)

def writtenEvent (w : WrittenPlan) (groups : KeyMap AssetKey NodeId) : Event :=
  let (buckets, loaded) := w.bundles.partition fun b =>
    match b.origin with
    | .bucket _ _ => true
    | .loaded _ _ => false
  .counts "ideal graph: wrote bundle graph" [
    ("root_bundles", buckets.length),
    ("referenced_bundles", loaded.length),
    ("bundle_groups", groups.size)]

/-- Writes a plan into the graph. -/
def writePlan (g : BundleGraph) (i : Index) (config : Config) (p : Plan) :
    BundleGraph × Report Unit :=
  match addBundles (p.plannedBundles i config) g with
  | (filled, .error e) => (filled, .ofExcept (.error e))
  | (filled, .ok bundles) =>
    let w : WrittenPlan := ⟨p, bundles⟩
    match writeGroups w p.groupRoots filled with
    | (grouped, .error e) => (grouped, .ofExcept (.error e))
    | (grouped, .ok groups) =>
      let linked := grouped.linkAll w.loadEdges
      match w.dependencyEdges i groups with
      | .error e => (linked, .ofExcept (.error e))
      | .ok edges => (linked.linkAll edges, .event (writtenEvent w groups))

end BundleGraph

end CodeSplit
