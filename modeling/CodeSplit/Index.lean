import CodeSplit.AssetGraph
import CodeSplit.Event
import CodeSplit.Keyed.Map
import CodeSplit.Total
import CodeSplit.Triggers

/-!
The graph index: an asset graph by numbers. Assets are numbered in the order of their ids, so that
ordering keys is ordering ids, and each asset lists its dependencies with the assets they resolved
to. The entries of the targets and the triggers of a dependency are read off it.
-/
namespace CodeSplit

/-- A dependency of an asset and the asset it resolved to. -/
structure Link where
  dependency : Dependency
  target : Option AssetKey
  deriving DecidableEq, Repr

structure IndexedAsset where
  asset : Asset
  envId : String
  links : List Link
  deriving DecidableEq, Repr

structure Index where
  assets : List IndexedAsset := []
  deriving DecidableEq, Repr, Inhabited

/-- An entry dependency and the asset it resolved to. -/
structure Entry where
  dependency : Dependency
  asset : AssetKey
  target : Target
  deriving DecidableEq, Repr

namespace Index

def size (i : Index) : Nat := i.assets.length

def keys (i : Index) : List AssetKey := List.range i.size

def indexed? (i : Index) (k : AssetKey) : Option IndexedAsset := i.assets[k]?

def asset? (i : Index) (k : AssetKey) : Option Asset := (i.indexed? k).map IndexedAsset.asset

/-- The dependencies of an asset in the order of their declaration. -/
def links (i : Index) (k : AssetKey) : List Link :=
  match i.indexed? k with
  | some a => a.links
  | none => []

def dependencyCount (i : Index) : Nat := total (i.assets.map fun a => a.links.length)

def keyOf? (i : Index) (id : String) : Option AssetKey :=
  i.assets.findIdx? fun a => a.asset.id = id

/-- The asset of a key that is in use. -/
def asset (i : Index) (k : AssetKey) : Except Fault Asset :=
  match i.asset? k with
  | some a => .ok a
  | none => .error (.misuse (.noSuchAsset k))

def idOf (i : Index) (k : AssetKey) : Except Fault String := Asset.id <$> i.asset k

def sizeOf (i : Index) (k : AssetKey) : Except Fault Nat := Asset.size <$> i.asset k

def idsOf (i : Index) (ks : KeySet AssetKey) : Except Fault (List String) := ks.toList.mapM i.idOf

def totalSize (i : Index) (ks : KeySet AssetKey) : Except Fault Nat :=
  total <$> ks.toList.mapM i.sizeOf

/-- Ids of the assets of a graph, in ascending order and once each. -/
def idsOfGraph (g : AssetGraph) : List String :=
  (KeySet.ofList (g.assets.map fun (_, a) => a.id)).toList

/-- The links of a node: the dependencies its edges lead to. -/
def linksOfNode (g : AssetGraph) (ids : List String) (n : NodeId) : List Link :=
  (g.outgoing n).filterMap fun d =>
    (g.dependency? d).map fun dependency =>
      { dependency
        target := ((g.resolve? d).bind g.asset?).bind fun a => ids.findIdx? (· = a.id) }

/-- The asset with an id, and the links of all nodes that hold it. -/
def indexedOfGraph? (g : AssetGraph) (ids : List String) (id : String) : Option IndexedAsset :=
  let nodes := g.assets.filter fun (_, a) => a.id = id
  nodes.getLast?.map fun (_, asset) =>
    { asset
      envId := asset.env.id
      links := nodes.flatMap fun (n, _) => linksOfNode g ids n }

def ofGraph (g : AssetGraph) : Index :=
  let ids := idsOfGraph g
  ⟨ids.filterMap (indexedOfGraph? g ids)⟩

def indexedEvent (i : Index) : Event :=
  .counts "ideal graph: indexed asset graph" [
    ("assets", i.size), ("dependencies", i.dependencyCount)]

/-- The asset that an entry dependency of the graph resolved to. -/
def entryOf (i : Index) (g : AssetGraph) (n : NodeId) (dependency : Dependency) :
    Except Fault Entry :=
  match ((g.resolve? n).bind g.asset?).bind fun a => i.keyOf? a.id with
  | some asset => .ok { dependency, asset, target := dependency.target.getD {} }
  | none => .error (.failure (.unresolvedEntry dependency.specifier))

/-- Entry dependencies in the order of their ids. -/
def entryDependencies (g : AssetGraph) : List (NodeId × Dependency) :=
  arrange (fun a b => KeyOrder.before a.2.id b.2.id)
    (g.dependencies.filter fun (_, d) => d.isEntry)

/-- The entries of each target, by the name of the target. -/
def entriesByTarget (i : Index) (g : AssetGraph) : Except Fault (KeyMap String (List Entry)) := do
  let dependencies := entryDependencies g
  if dependencies.isEmpty then .error (.failure .noEntryDependencies)
  let entries ← dependencies.mapM fun (n, d) => i.entryOf g n d
  return entries.foldl (fun m e => m.update e.target.name [] (· ++ [e])) ∅

def entriesEvent (entries : KeyMap String (List Entry)) : Event :=
  .counts "ideal graph: extracted entries" [
    ("targets", entries.size), ("entries", total (entries.values.map List.length))]

/-- Why following a dependency starts a new bundle; nothing if it does not. A change of file type
alone starts none. -/
def triggersOf (i : Index) (source : AssetKey) (dependency : Dependency) (target : AssetKey) :
    Triggers :=
  match i.indexed? source, i.indexed? target with
  | some source, some target =>
    if source.asset.env.singleFileOutput then {}
    else
      { parallel := dependency.priority = .parallel
        lazy := dependency.priority = .lazy
        conditional := dependency.priority = .conditional
        isolated := dependency.isIsolated || target.asset.behavior.any Behavior.isIsolated
        inline := dependency.isInline || target.asset.behavior.any Behavior.isInline
        environment := source.envId ≠ target.envId }
  | _, _ => {}

end Index

end CodeSplit
