import CodeSplit.Asset
import CodeSplit.Dependency

/-!
The asset graph: assets and their dependencies. Edges run from the root to the entry dependencies,
from an asset to its dependencies, and from a dependency to the asset it resolved to. Nodes are
numbered in the order they were added; adding a node under a known id replaces the node in place.
-/
namespace CodeSplit

abbrev NodeId := Nat

inductive AssetGraph.Node where
  | root
  | asset (asset : Asset)
  | dependency (dependency : Dependency)
  deriving DecidableEq, Repr

structure AssetGraph where
  nodes : List AssetGraph.Node := [.root]
  edges : List (NodeId × NodeId) := []
  deriving DecidableEq, Repr, Inhabited

namespace AssetGraph

def empty : AssetGraph := {}

/-- Assets and dependencies share one space of ids. -/
def Node.key? : Node → Option String
  | .root => none
  | .asset a => some a.id
  | .dependency d => some d.id

def Node.asset? : Node → Option Asset
  | .asset a => some a
  | _ => none

def Node.dependency? : Node → Option Dependency
  | .dependency d => some d
  | _ => none

def rootNode : NodeId := 0

def node? (g : AssetGraph) (n : NodeId) : Option Node := g.nodes[n]?

def asset? (g : AssetGraph) (n : NodeId) : Option Asset := (g.node? n).bind Node.asset?

def dependency? (g : AssetGraph) (n : NodeId) : Option Dependency :=
  (g.node? n).bind Node.dependency?

def nodeOfKey? (g : AssetGraph) (key : String) : Option NodeId :=
  g.nodes.findIdx? fun node => node.key? = some key

def addNode (g : AssetGraph) (key : String) (node : Node) : AssetGraph × NodeId :=
  match g.nodeOfKey? key with
  | some n => ({ g with nodes := g.nodes.set n node }, n)
  | none => ({ g with nodes := g.nodes ++ [node] }, g.nodes.length)

def addAsset (g : AssetGraph) (asset : Asset) : AssetGraph × NodeId :=
  g.addNode asset.id (.asset asset)

def addDependency (g : AssetGraph) (dependency : Dependency) : AssetGraph × NodeId :=
  g.addNode dependency.id (.dependency dependency)

def checkNode (g : AssetGraph) (n : NodeId) : Except Fault Unit :=
  if n < g.nodes.length then .ok () else .error (.misuse (.noSuchNode n))

/-- Adds an edge between two nodes unless it is there. -/
def link (g : AssetGraph) (source target : NodeId) : AssetGraph :=
  if (source, target) ∈ g.edges then g else { g with edges := g.edges ++ [(source, target)] }

def hasEdge (g : AssetGraph) (source target : NodeId) : Except Fault Bool := do
  g.checkNode source
  g.checkNode target
  return decide ((source, target) ∈ g.edges)

def addEdge (g : AssetGraph) (source target : NodeId) : Except Fault AssetGraph := do
  g.checkNode source
  g.checkNode target
  return g.link source target

def addEntryDependency (g : AssetGraph) (dependency : Dependency) : AssetGraph × NodeId :=
  let (g, n) := g.addDependency dependency
  (g.link rootNode n, n)

/-- Targets of the edges of a node, in the order the edges were added. -/
def outgoing (g : AssetGraph) (n : NodeId) : List NodeId :=
  (g.edges.filter fun e => e.1 = n).map Prod.snd

/-- The first asset that the edges of a dependency lead to. -/
def resolve? (g : AssetGraph) (n : NodeId) : Option NodeId :=
  (g.outgoing n).find? fun m => (g.asset? m).isSome

def entryNodes (g : AssetGraph) : List NodeId := g.outgoing rootNode

/-- Nodes with their numbers. -/
def numbered (g : AssetGraph) : List (NodeId × Node) :=
  g.nodes.zipIdx.map fun (node, n) => (n, node)

def assets (g : AssetGraph) : List (NodeId × Asset) :=
  g.numbered.filterMap fun (n, node) => node.asset?.map (Prod.mk n)

def dependencies (g : AssetGraph) : List (NodeId × Dependency) :=
  g.numbered.filterMap fun (n, node) => node.dependency?.map (Prod.mk n)

end AssetGraph

end CodeSplit
