import CodeSplit.Bundler
import CodeSplit.View.AssetGraph
import CodeSplit.View.Config

/-!
Plans as JSON, for inspection: assets and roots by their keys, sets as ascending lists.
-/
namespace CodeSplit

def KeySet.view (s : KeySet AssetKey) : Json := Json.naturals s.toList

def KeyMap.view (m : KeyMap AssetKey (KeySet AssetKey)) : Json :=
  .array (m.entries.map fun (k, s) => .array [.natural k, s.view])

def BundleEdge.view (e : BundleEdge) : Json := .array [
  .natural e.source, .natural e.target, .natural e.declaredBy, .string e.dependencyId,
  .natural e.triggers.bits]

def SharedBundle.view (b : SharedBundle) : Json := .object [
  ("type", .string b.fileType.extension),
  ("assets", b.assets.view),
  ("consumers", b.consumers.view),
  ("size", .natural b.size),
  ("alive", .bool b.alive)]

namespace Plan

def rootView (k : AssetKey) (r : Root) : Json := .object [
  ("key", .natural k),
  ("assetId", .string r.assetId),
  ("envId", .string r.env.id),
  ("type", .string r.fileType.extension),
  ("triggers", .natural r.triggers.bits),
  ("needsStableName", .bool r.needsStableName),
  ("chunkName", .ofOption .string r.chunkName),
  ("isSplittable", .bool r.isSplittable),
  ("isEntryLike", .bool r.isEntryLike),
  ("isInline", .bool r.isInline),
  ("isReusable", .bool r.isReusable)]

def rootsView (p : Plan) : Json := .array (p.roots.entries.map fun (k, r) => rootView k r)

def edgesView (p : Plan) : Json := .array (p.edges.map BundleEdge.view)

def reusedView (p : Plan) : Json :=
  .array (p.reused.toList.map fun (a, b) => Json.naturals [a, b])

def placementsView (p : Plan) : Json :=
  .array (p.placements.entries.map fun (k, buckets) => .array [.natural k,
    .array (buckets.entries.map fun (t, assets) => .array [.string t.extension, assets.view])])

def sharedView (p : Plan) : Json := .array (p.sharedBundles.map SharedBundle.view)

def manualView (p : Plan) : Json :=
  .array (p.manualBundles.entries.map fun (k, b) => .object [
    ("name", .string k.name),
    ("type", .string k.fileType.extension),
    ("partition", .natural k.partition),
    ("split", .natural k.split),
    ("qualifiedName", .string k.qualifiedName),
    ("assets", b.assets.view),
    ("consumers", b.consumers.view)])

def view (p : Plan) : Json := .object [
  ("target", .string p.target.name),
  ("roots", p.rootsView),
  ("edges", p.edgesView),
  ("reused", p.reusedView),
  ("ownGroups", p.ownGroups.view),
  ("placements", p.placementsView),
  ("manual", p.manualView),
  ("shared", p.sharedView)]

end Plan

namespace Bundler

def Stats.view (s : Stats) : Json := .object [
  ("assets", .natural s.assets),
  ("dependencies", .natural s.dependencies),
  ("targets", .natural s.targets),
  ("bundleRoots", .natural s.bundleRoots),
  ("sharedBundles", .natural s.sharedBundles),
  ("manualBundles", .natural s.manualBundles)]

def Build.view (b : Build) : Json := .object [
  ("graphs", .array (b.plans.map Plan.view)), ("stats", b.stats.view)]

end Bundler

end CodeSplit
