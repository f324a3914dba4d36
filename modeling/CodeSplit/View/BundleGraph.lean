import CodeSplit.BundleGraph

/-!
Bundle graphs as JSON, for inspection.
-/
namespace CodeSplit

def EdgeType.name : EdgeType → String
  | .null => "Null"
  | .bundle => "Bundle"
  | .references => "References"
  | .async => "Async"

def EdgeType.ofName? : String → Option EdgeType
  | "Null" => some .null
  | "Bundle" => some .bundle
  | "References" => some .references
  | "Async" => some .async
  | _ => none

def BundleKind.ofName? : String → Option BundleKind
  | "root" => some .root
  | "shared" => some .shared
  | "manual" => some .manual
  | _ => none

def Bundle.members (b : Bundle) : List (String × Json) := [
  ("id", .string b.id),
  ("name", .string b.name),
  ("type", .string b.fileType.extension),
  ("envId", .string b.env.id),
  ("target", .string b.target.name),
  ("kind", .string b.kind.name),
  ("assetIds", Json.strings b.assetIds),
  ("entryAssetIds", Json.strings b.entryAssetIds),
  ("mainEntryId", .ofOption .string b.mainEntryId),
  ("needsStableName", .bool b.needsStableName),
  ("bundleBehavior", .ofOption Behavior.toJson b.behavior),
  ("isSplittable", .bool b.isSplittable),
  ("manualSharedBundle", .ofOption .string b.declaration),
  ("size", .natural b.size),
  ("isInline", .bool b.isInline)]

namespace BundleGraph

def Node.view : Node → Json
  | .root => .string "root"
  | .group g => .object [("group", .string g.id)]
  | .bundle b => .object [("bundle", .string b.id)]

def bundleIds (bundles : List Bundle) : Json := Json.strings (bundles.map Bundle.id)

def groupIds (groups : List BundleGroup) : Json := Json.strings (groups.map BundleGroup.id)

def bundleView (g : BundleGraph) (b : Bundle) : Json := .object (b.members ++ [
  ("references", bundleIds (g.referencedBundles b.id)),
  ("async", groupIds (g.asyncGroups b.id)),
  ("groups", groupIds (g.groupsContaining b.id))])

def groupView (g : BundleGraph) (group : BundleGroup) : Json := .object [
  ("id", .string group.id),
  ("entryAssetId", .string group.entryAssetId),
  ("target", .string group.target.name),
  ("bundles", bundleIds (g.bundlesInGroup group.id true)),
  ("requested", bundleIds (g.bundlesInGroup group.id false))]

def edgeView (e : Edge) : Json :=
  .array [.natural e.source, .natural e.target, .string e.edgeType.name]

def view (g : BundleGraph) : Json := .object [
  ("bundles", .array (g.bundles.map g.bundleView)),
  ("groups", .array (g.groups.map g.groupView)),
  ("edges", .array (g.edges.map edgeView)),
  ("entryGroups", groupIds g.entryGroups)]

end BundleGraph

end CodeSplit
