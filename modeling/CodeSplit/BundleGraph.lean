import CodeSplit.AssetGraph
import CodeSplit.BundleName
import CodeSplit.Decision

/-!
The bundle graph, which is the result of bundling: bundles, the groups that load them, and how
bundles refer to one another. Nodes are known by their content keys. What is read off the graph is
defined here; the tables that it is stored in are kept apart.
-/
namespace CodeSplit

inductive EdgeType where
  | null
  /-- From a group to a bundle it loads, and from the root to the groups of entries. -/
  | bundle
  /-- From a bundle to a bundle that has to be loaded with it. -/
  | references
  /-- From a bundle to a group that it loads on demand. -/
  | async
  deriving DecidableEq, Repr, Inhabited

inductive BundleKind where
  | root
  | shared
  | manual
  deriving DecidableEq, Repr

def BundleKind.name : BundleKind → String
  | .root => "root"
  | .shared => "shared"
  | .manual => "manual"

structure Bundle where
  id : String
  name : String
  fileType : FileType := .js
  env : Environment := {}
  target : Target := {}
  kind : BundleKind := .root
  assetIds : List String := []
  /-- Assets that this bundle is the entry point of. -/
  entryAssetIds : List String := []
  mainEntryId : Option String := none
  needsStableName : Bool := false
  behavior : Option Behavior := none
  isSplittable : Bool := true
  /-- The declaration that a manual bundle comes from. -/
  declaration : Option String := none
  size : Nat := 0
  deriving DecidableEq, Repr

structure BundleGroup where
  id : String
  entryAssetId : String
  target : Target := {}
  deriving DecidableEq, Repr

inductive BundleGraph.Node where
  | root
  | group (group : BundleGroup)
  | bundle (bundle : Bundle)
  deriving DecidableEq, Repr

structure BundleGraph.Edge where
  source : NodeId
  target : NodeId
  edgeType : EdgeType
  deriving DecidableEq, Repr

/-- A bundle graph without the tables that it is stored in, which `BundleGraph.Tables` adds. -/
structure BundleGraph where
  nodes : List BundleGraph.Node := [.root]
  edges : List BundleGraph.Edge := []
  decisions : DecisionLog := {}
  deriving DecidableEq, Repr, Inhabited

namespace Bundle

def isInline (b : Bundle) : Bool := b.behavior.any Behavior.isInline

/-- Takes the part of entry point that `other` has, a bundle with the same contents. -/
def merge (b other : Bundle) : Bundle :=
  let entries := other.entryAssetIds.foldl
    (fun entries e => if e ∈ entries then entries else entries ++ [e]) b.entryAssetIds
  { b with
    entryAssetIds := arrange KeyOrder.before entries
    mainEntryId := b.mainEntryId <|> other.mainEntryId
    needsStableName := b.needsStableName || other.needsStableName }

def toJson (b : Bundle) : Json := .object [
  ("id", .string b.id),
  ("name", .string b.name),
  ("type", b.fileType.toJson),
  ("env", b.env.toJson),
  ("target", b.target.toJson),
  ("kind", .string b.kind.name),
  ("assetIds", Json.strings b.assetIds),
  ("entryAssetIds", Json.strings b.entryAssetIds),
  ("mainEntryId", .ofOption .string b.mainEntryId),
  ("needsStableName", .bool b.needsStableName),
  ("bundleBehavior", .ofOption Behavior.toJson b.behavior),
  ("isSplittable", .bool b.isSplittable),
  ("manualSharedBundle", .ofOption .string b.declaration),
  ("size", .natural b.size)]

end Bundle

def BundleGroup.toJson (g : BundleGroup) : Json := .object [
  ("id", .string g.id), ("entryAssetId", .string g.entryAssetId), ("target", g.target.toJson)]

namespace BundleGraph

def empty : BundleGraph := {}

def rootNode : NodeId := 0

def rootKey : String := "@@root"

namespace Node

def key : Node → String
  | .root => rootKey
  | .group g => g.id
  | .bundle b => b.id

def bundle? : Node → Option Bundle
  | .bundle b => some b
  | _ => none

def group? : Node → Option BundleGroup
  | .group g => some g
  | _ => none

end Node

def node? (g : BundleGraph) (n : NodeId) : Option Node := g.nodes[n]?

/-- The node with a content key. Stored graphs have a table for this. -/
def nodeOfKey? (g : BundleGraph) (key : String) : Option NodeId :=
  g.nodes.findIdx? fun node => node.key = key

def addNode (g : BundleGraph) (node : Node) : BundleGraph × NodeId :=
  ({ g with nodes := g.nodes ++ [node] }, g.nodes.length)

/-- Adds a group, or finds the node that has its id. -/
def addGroup (g : BundleGraph) (group : BundleGroup) : BundleGraph × NodeId :=
  match g.nodeOfKey? group.id with
  | some n => (g, n)
  | none => g.addNode (.group group)

/-- Adds a bundle, or merges it into the bundle that has its id, which must hold the same assets. -/
def addBundle (g : BundleGraph) (bundle : Bundle) : Except Fault (BundleGraph × NodeId) :=
  match g.nodeOfKey? bundle.id with
  | none => .ok (g.addNode (.bundle bundle))
  | some n =>
    match g.node? n with
    | some (.bundle existing) =>
      if existing.assetIds = bundle.assetIds then
        .ok ({ g with nodes := g.nodes.set n (.bundle (existing.merge bundle)) }, n)
      else .error (.failure (.differentContents bundle.id))
    | _ => .error (.failure (.idOfAnotherNode bundle.id))

def checkNode (g : BundleGraph) (n : NodeId) : Except Fault Unit :=
  if n < g.nodes.length then .ok () else .error (.misuse (.noSuchNode n))

/-- Adds an edge between two nodes unless it is there or leads back to its start. -/
def link (g : BundleGraph) (source target : NodeId) (edgeType : EdgeType) : BundleGraph :=
  if source = target ∨ ⟨source, target, edgeType⟩ ∈ g.edges then g
  else { g with edges := g.edges ++ [⟨source, target, edgeType⟩] }

def hasEdge (g : BundleGraph) (source target : NodeId) (edgeType : EdgeType) :
    Except Fault Bool := do
  g.checkNode source
  g.checkNode target
  return decide (⟨source, target, edgeType⟩ ∈ g.edges)

def addEdge (g : BundleGraph) (source target : NodeId) (edgeType : EdgeType) :
    Except Fault BundleGraph := do
  if source = target then return g
  g.checkNode source
  g.checkNode target
  return g.link source target edgeType

/-- Targets of the edges of one type, in the order the edges were added. -/
def outgoing (g : BundleGraph) (n : NodeId) (edgeType : EdgeType) : List NodeId :=
  (g.edges.filter fun e => e.source = n ∧ e.edgeType = edgeType).map Edge.target

def incoming (g : BundleGraph) (n : NodeId) (edgeType : EdgeType) : List NodeId :=
  (g.edges.filter fun e => e.target = n ∧ e.edgeType = edgeType).map Edge.source

def bundleAt? (g : BundleGraph) (n : NodeId) : Option Bundle := (g.node? n).bind Node.bundle?

def groupAt? (g : BundleGraph) (n : NodeId) : Option BundleGroup := (g.node? n).bind Node.group?

def bundles (g : BundleGraph) : List Bundle := g.nodes.filterMap Node.bundle?

def groups (g : BundleGraph) : List BundleGroup := g.nodes.filterMap Node.group?

def bundle? (g : BundleGraph) (id : String) : Option Bundle := (g.nodeOfKey? id).bind g.bundleAt?

def group? (g : BundleGraph) (id : String) : Option BundleGroup :=
  (g.nodeOfKey? id).bind g.groupAt?

/-- Groups that load when the application starts. -/
def entryGroups (g : BundleGraph) : List BundleGroup :=
  (g.outgoing rootNode .bundle).filterMap g.groupAt?

/-- Bundles that a node with the given id leads to. -/
def bundlesAlong (g : BundleGraph) (id : String) (edgeType : EdgeType) : List Bundle :=
  match g.nodeOfKey? id with
  | some n => (g.outgoing n edgeType).filterMap g.bundleAt?
  | none => []

/-- Bundles that a group loads, in load order; inline ones are written into others and are not
requested. -/
def bundlesInGroup (g : BundleGraph) (groupId : String) (includeInline : Bool) : List Bundle :=
  (g.bundlesAlong groupId .bundle).filter fun b => includeInline || !b.isInline

def groupsContaining (g : BundleGraph) (bundleId : String) : List BundleGroup :=
  match g.nodeOfKey? bundleId with
  | some n => (g.incoming n .bundle).filterMap g.groupAt?
  | none => []

/-- Bundles that have to be loaded with a bundle. -/
def referencedBundles (g : BundleGraph) (bundleId : String) : List Bundle :=
  g.bundlesAlong bundleId .references

/-- Groups that a bundle loads on demand. -/
def asyncGroups (g : BundleGraph) (bundleId : String) : List BundleGroup :=
  match g.nodeOfKey? bundleId with
  | some n => (g.outgoing n .async).filterMap g.groupAt?
  | none => []

/-- Halves the part of `ids` from `base` of length `size` until one element is left, which is the
last that does not come after `id`, if the list ascends. -/
def bisect (ids : List String) (id : String) : (fuel base size : Nat) → Nat
  | 0, base, _ => base
  | fuel + 1, base, size =>
    if size ≤ 1 then base
    else
      let half := size / 2
      let after := (ids[base + half]?).any fun middle => KeyOrder.before id middle
      bisect ids id fuel (if after then base else base + half) (size - half)

/-- Binary search; exact on ascending lists. -/
def holdsAsset (b : Bundle) (assetId : String) : Bool :=
  b.assetIds[bisect b.assetIds assetId b.assetIds.length 0 b.assetIds.length]? = some assetId

def bundlesContaining (g : BundleGraph) (assetId : String) : List Bundle :=
  g.bundles.filter fun b => holdsAsset b assetId

end BundleGraph

end CodeSplit
