import CodeSplit.AssetGraph
import CodeSplit.Index

/-!
Asset graphs and their indexes as JSON, for inspection.
-/
namespace CodeSplit

def Json.naturals (ns : List Nat) : Json := .array (ns.map .natural)

def Dependency.view (d : Dependency) : Json := .object [
  ("id", .string d.id),
  ("specifier", .string d.specifier),
  ("specifierType", d.specifierType.toJson),
  ("priority", d.priority.toJson),
  ("behavior", .ofOption Behavior.toJson d.behavior),
  ("envId", .string d.env.id),
  ("sourceAssetId", .ofOption .string d.sourceAssetId),
  ("sourcePath", .ofOption (fun p => .string p.text) d.sourcePath),
  ("target", .ofOption (fun t => .string t.name) d.target),
  ("isEntry", .bool d.isEntry),
  ("isOptional", .bool d.isOptional),
  ("needsStableName", .bool d.needsStableName),
  ("chunkName", .ofOption .string d.chunkName),
  ("isIsolated", .bool d.isIsolated),
  ("isInline", .bool d.isInline)]

def Asset.view (a : Asset) : Json := .object [
  ("id", .string a.id),
  ("path", .string a.filePath.text),
  ("type", .string a.fileType.extension),
  ("size", .natural a.size),
  ("envId", .string a.env.id),
  ("behavior", .ofOption Behavior.toJson a.behavior),
  ("splittable", .bool a.isSplittable)]

namespace AssetGraph

def Node.view : Node → Json
  | .root => .string "root"
  | .asset a => .object [("asset", a.view)]
  | .dependency d => .object [("dependency", d.view)]

/-- The nodes, the edges in ascending order, and the entries. -/
def view (g : AssetGraph) : Json := .object [
  ("nodes", .array (g.nodes.map Node.view)),
  ("edges", .array ((arrange KeyOrder.before g.edges).map fun (a, b) => Json.naturals [a, b])),
  ("entries", Json.naturals g.entryNodes)]

/-- Ids and paths of the assets in ascending order. -/
def assetPaths (g : AssetGraph) : Json :=
  let pairs := arrange KeyOrder.before (g.assets.map fun (_, a) => (a.id, a.filePath.text))
  .array (pairs.map fun (id, path) => Json.strings [id, path])

/-- The numbers of assets, nodes and edges. -/
def counts (g : AssetGraph) : Json :=
  Json.naturals [g.assets.length, g.nodes.length, g.edges.length]

end AssetGraph

namespace Index

def linkView (i : Index) (source : AssetKey) (link : Link) : Json := .array [
  .string link.dependency.id,
  .ofOption .natural link.target,
  .ofOption (fun t => .natural (i.triggersOf source link.dependency t).bits) link.target]

def view (i : Index) : Json := .object [
  ("assets", .array (i.assets.zipIdx.map fun (a, k) => .object [
    ("id", .string a.asset.id),
    ("path", .string a.asset.filePath.text),
    ("envId", .string a.envId),
    ("size", .natural a.asset.size),
    ("deps", .array (a.links.map (i.linkView k)))])),
  ("isEmpty", .bool i.assets.isEmpty),
  ("dependencyCount", .natural i.dependencyCount)]

def entriesView (entries : KeyMap String (List Entry)) : Json :=
  .array (entries.entries.map fun (name, entries) => .array [.string name,
    .array (entries.map fun e =>
      .array [.string e.dependency.id, .natural e.asset, .string e.target.name])])

end Index

end CodeSplit
