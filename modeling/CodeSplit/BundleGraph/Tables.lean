import CodeSplit.BundleGraph
import CodeSplit.Keyed.Map

/-!
The bundle graph the way it is stored. The nodes stand under their numbers, and each of them is a
vertex of a directed graph, which carries the number. One table leads from content keys to numbers,
another from numbers to vertices. Groups, bundles and edges are added by writing to these parts one
after the other, so that the parts have to be kept in step. Of the directed graph only what is done
with it is there: vertices and arcs are added, and are listed in the order they came.
-/
namespace CodeSplit

namespace Bundle

variable (b : Bundle)

/-- Adds an entry behind the others, if it is new. -/
def pushEntry (entry : String) : Bundle :=
  { b with entryAssetIds :=
      if entry ∈ b.entryAssetIds then b.entryAssetIds else b.entryAssetIds ++ [entry] }

def sortEntries : Bundle := { b with entryAssetIds := arrange KeyOrder.before b.entryAssetIds }

/-- Sets the main entry, if there is none. -/
def proposeMainEntry (entry : Option String) : Bundle :=
  { b with mainEntryId := b.mainEntryId <|> entry }

def requireStableName (stable : Bool) : Bundle :=
  { b with needsStableName := b.needsStableName || stable }

end Bundle

namespace BundleGraph

abbrev Vertex := Nat

structure Arc where
  source : Vertex
  target : Vertex
  edgeType : EdgeType
  deriving DecidableEq, Repr

/-- A directed graph. Its vertices are numbered as they are added, and carry numbers of nodes. -/
structure Digraph where
  weights : List NodeId := []
  arcs : List Arc := []
  deriving DecidableEq, Repr

namespace Digraph

variable (d : Digraph)

def addVertex (weight : NodeId) : Digraph × Vertex :=
  ({ d with weights := d.weights ++ [weight] }, d.weights.length)

def addArc (arc : Arc) : Digraph := { d with arcs := d.arcs ++ [arc] }

/-- An arc by the numbers that its ends carry. -/
def edge? (arc : Arc) : Option Edge := do
  let source ← d.weights[arc.source]?
  let target ← d.weights[arc.target]?
  return { source, target, edgeType := arc.edgeType }

end Digraph

structure Tables where
  nodes : List Node
  digraph : Digraph
  vertices : KeyMap NodeId Vertex
  numbers : KeyMap String NodeId
  decisions : DecisionLog := {}
  deriving DecidableEq, Repr

namespace Tables

/-- The tables of the root. -/
def empty : Tables where
  nodes := [.root]
  digraph := (Digraph.addVertex {} rootNode).1
  vertices := KeyMap.insert ∅ rootNode (Digraph.addVertex {} rootNode).2
  numbers := KeyMap.insert ∅ rootKey rootNode

section Reading

variable (t : Tables)

/-- What the tables store. -/
def graph : BundleGraph where
  nodes := t.nodes
  edges := t.digraph.arcs.filterMap t.digraph.edge?
  decisions := t.decisions

def numberOf? (key : String) : Option NodeId := t.numbers.get? key

def vertexOf? (n : NodeId) : Option Vertex := t.vertices.get? n

def bundleAt? (n : NodeId) : Option Bundle := t.nodes[n]?.bind Node.bundle?

/-- The nodes at the far ends of the arcs of one type that have their near end at a node. -/
def neighbours (near far : Arc → Vertex) (n : NodeId) (edgeType : EdgeType) : List NodeId :=
  match t.vertexOf? n with
  | none => []
  | some v =>
    (t.digraph.arcs.filter fun arc => near arc = v ∧ arc.edgeType = edgeType).filterMap
      fun arc => t.digraph.weights[far arc]?

def outgoing : NodeId → EdgeType → List NodeId := t.neighbours Arc.source Arc.target

def incoming : NodeId → EdgeType → List NodeId := t.neighbours Arc.target Arc.source

end Reading

/-- Steps that read the tables and write to them, and may be given up. -/
abbrev Writing (α : Type) := ExceptT Fault (StateM Tables) α

/-- What comes of the steps, and the tables as they leave them. -/
def Writing.onTables {α : Type} (steps : Writing α) (t : Tables) : Except Fault α × Tables :=
  steps.run t

/-- Enters a node into every table. -/
def addNode (key : String) (node : Node) : Writing NodeId := do
  let n := (← get).nodes.length
  modify fun t => { t with nodes := t.nodes ++ [node] }
  modify fun t => { t with numbers := t.numbers.insert key n }
  let vertex := ((← get).digraph.addVertex n).2
  modify fun t => { t with digraph := (t.digraph.addVertex n).1 }
  modify fun t => { t with vertices := t.vertices.insert n vertex }
  return n

/-- Adds a group, or finds the node that has its id. -/
def addGroup (group : BundleGroup) : Writing NodeId := do
  match (← get).numberOf? group.id with
  | some n => return n
  | none => addNode group.id (.group group)

/-- Changes a bundle at its place. -/
def editBundle (n : NodeId) (edit : Bundle → Bundle) (t : Tables) : Tables :=
  { t with nodes := t.nodes.modify n fun
      | .bundle b => .bundle (edit b)
      | other => other }

/-- Merges a bundle into the one at a place. -/
def mergeInPlace (n : NodeId) (bundle : Bundle) : Writing PUnit := do
  bundle.entryAssetIds.forM fun entry => modify (editBundle n (·.pushEntry entry))
  modify (editBundle n Bundle.sortEntries)
  modify (editBundle n (·.proposeMainEntry bundle.mainEntryId))
  modify (editBundle n (·.requireStableName bundle.needsStableName))

/-- Adds a bundle, or merges it into the bundle that has its id, which must hold the same assets. -/
def addBundle (bundle : Bundle) : Writing NodeId := do
  let t ← get
  match t.numberOf? bundle.id with
  | none => addNode bundle.id (.bundle bundle)
  | some n =>
    match t.bundleAt? n with
    | none => throw (.failure (.idOfAnotherNode bundle.id))
    | some existing =>
      if existing.assetIds = bundle.assetIds then
        mergeInPlace n bundle
        return n
      else throw (.failure (.differentContents bundle.id))

/-- The vertex of a node, which has to be there. -/
def vertexOf (n : NodeId) : Writing Vertex := do
  match (← get).vertexOf? n with
  | some v => return v
  | none => throw (.misuse (.noSuchNode n))

def hasEdge (source target : NodeId) (edgeType : EdgeType) : Writing Bool := do
  let source ← vertexOf source
  let target ← vertexOf target
  return decide (⟨source, target, edgeType⟩ ∈ (← get).digraph.arcs)

/-- Adds an edge between two nodes unless it is there or leads back to its start. -/
def addEdge (source target : NodeId) (edgeType : EdgeType) : Writing PUnit := do
  if source = target then return
  if ← hasEdge source target edgeType then return
  let source ← vertexOf source
  let target ← vertexOf target
  modify fun t => { t with digraph := t.digraph.addArc ⟨source, target, edgeType⟩ }

end Tables

end BundleGraph

end CodeSplit
