import CodeSplit.Proofs.GraphContents
import Mathlib.Data.List.Induction

/-!
An asset graph as a store that is filled by calls. What it holds in the end can be read off the
calls: under an id there is what was added under it last, and the edges stand in the order in which
they were asked for first.
-/
namespace CodeSplit.AssetGraph

/-- A call that adds to an asset graph. -/
inductive Call where
  | asset (added : Asset)
  | dependency (added : Dependency)
  | entryDependency (added : Dependency)
  | edge (source target : NodeId)
  deriving DecidableEq, Repr

namespace Call

/-- The graph after a call. An edge between nodes that are not there is refused. -/
def apply (g : AssetGraph) : Call → AssetGraph
  | .asset added => (g.addAsset added).1
  | .dependency added => (g.addDependency added).1
  | .entryDependency added => (g.addEntryDependency added).1
  | .edge source target => (g.addEdge source target).toOption.getD g

/-- What a call adds under an id. -/
def node? : Call → Option Node
  | .asset added => some (.asset added)
  | .dependency added | .entryDependency added => some (.dependency added)
  | .edge _ _ => none

/-- The edge that a call asks for, unless it is refused. -/
def edge? (g : AssetGraph) : Call → Option (NodeId × NodeId)
  | .entryDependency added => some (rootNode, (g.addDependency added).2)
  | .edge source target =>
    if source < g.nodes.length ∧ target < g.nodes.length then some (source, target) else none
  | _ => none

end Call

/-- The graph after some calls, starting with nothing. -/
def afterCalls (calls : List Call) : AssetGraph := calls.foldl Call.apply .empty

/-- What was added under an id last. -/
def lastAdded? (calls : List Call) (id : String) : Option Node :=
  ((calls.filterMap Call.node?).filter fun node => node.key? = some id).getLast?

/-- The asset that was added under an id last. -/
def lastAsset? (calls : List Call) (id : String) : Option Asset :=
  (((calls.filterMap Call.node?).filterMap Node.asset?).filter fun a => a.id = id).getLast?

/-- The edges that calls ask for, one after the other. -/
def edgesAskedFor : AssetGraph → List Call → List (NodeId × NodeId)
  | _, [] => []
  | g, call :: rest => (call.edge? g).toList ++ edgesAskedFor (call.apply g) rest

/-- The targets of the edges of a node, in the order in which the edges were asked for first. -/
def targetsAskedFor (calls : List Call) (n : NodeId) : List NodeId :=
  ((edgesAskedFor .empty calls).eraseDups.filter fun e => e.1 = n).map Prod.snd

variable {g : AssetGraph}

theorem afterCalls_append (calls : List Call) (call : Call) :
    afterCalls (calls ++ [call]) = call.apply (afterCalls calls) := by
  simp [afterCalls]

theorem Built.apply (built : g.Built) (call : Call) : (call.apply g).Built := by
  cases call with
  | asset added => exact built.addAsset added
  | dependency added => exact built.addDependency added
  | entryDependency added => exact built.addEntryDependency added
  | edge source target =>
    show ((g.addEdge source target).toOption.getD g).Built
    cases result : g.addEdge source target with
    | error fault => exact built
    | ok next => exact built.addEdge result

theorem built_afterCalls (calls : List Call) : (afterCalls calls).Built := by
  induction calls using List.reverseRecOn with
  | nil => exact .empty
  | append_singleton calls call ih =>
    rw [afterCalls_append]
    exact ih.apply call

section Contents

/-- Adding a node replaces what is there under its id, and nothing else. -/
theorem DistinctKeys.mem_addNode (distinct : g.DistinctKeys) {key : String} {node other : Node}
    (named : node.key? = some key) :
    other ∈ (g.addNode key node).1.nodes ↔
      other = node ∨ (other ∈ g.nodes ∧ other.key? ≠ some key) := by
  unfold AssetGraph.addNode
  cases found : g.nodeOfKey? key with
  | none =>
    have fresh : ∀ x ∈ g.nodes, x.key? ≠ some key := by
      simpa [nodeOfKey?] using found
    simp only [List.mem_append, List.mem_singleton]
    constructor
    · rintro (listed | same)
      · exact .inr ⟨listed, fresh other listed⟩
      · exact .inl same
    · rintro (same | ⟨listed, _⟩)
      · exact .inr same
      · exact .inl listed
  | some n =>
    obtain ⟨inside, holds, _⟩ := List.findIdx?_eq_some_iff_getElem.1 found
    have place : g.node? n = some g.nodes[n] := List.getElem?_eq_getElem inside
    have keyed : g.nodes[n].key? = some key := of_decide_eq_true holds
    constructor
    · intro listed
      obtain ⟨m, there⟩ := List.mem_iff_getElem?.1 listed
      rw [List.getElem?_set] at there
      split at there
      · rename_i same
        left
        simpa [inside, ← same] using there.symm
      · rename_i apart
        refine .inr ⟨List.mem_of_getElem? there, ?_⟩
        intro sameKey
        exact apart (distinct.node_eq place there (keyed.trans sameKey.symm))
    · rintro (rfl | ⟨listed, differs⟩)
      · exact List.mem_set inside other
      · obtain ⟨m, there⟩ := List.mem_iff_getElem?.1 listed
        have apart : n ≠ m := by
          intro same
          subst same
          cases place.symm.trans there
          exact differs keyed
        exact List.mem_of_getElem? ((List.getElem?_set_ne apart).trans there)

/-- What a call leaves under an id: what it adds there, or else what was there before. -/
theorem DistinctKeys.mem_apply (distinct : g.DistinctKeys) (call : Call) {node : Node} {id : String}
    (named : node.key? = some id) :
    node ∈ (call.apply g).nodes ↔ call.node? = some node ∨
      (node ∈ g.nodes ∧ ∀ added, call.node? = some added → added.key? ≠ some id) := by
  have adds {key : String} {added : Node} (keyed : added.key? = some key) :
      node ∈ (g.addNode key added).1.nodes ↔ some added = some node ∨
        (node ∈ g.nodes ∧ ∀ x, some added = some x → x.key? ≠ some id) := by
    rw [distinct.mem_addNode keyed, named]
    simp [keyed, eq_comm]
  cases call with
  | asset added => exact adds rfl
  | dependency added => exact adds rfl
  | entryDependency added =>
    show node ∈ ((g.addDependency added).1.link _ _).nodes ↔ _
    rw [nodes_link]
    exact adds rfl
  | edge source target =>
    have kept : (Call.apply g (.edge source target)).nodes = g.nodes := by
      show ((g.addEdge source target).toOption.getD g).nodes = g.nodes
      cases result : g.addEdge source target with
      | error fault => rfl
      | ok next => exact nodes_of_addEdge result
    simp [kept, Call.node?]

theorem lastAdded?_append (calls : List Call) (call : Call) (id : String) :
    lastAdded? (calls ++ [call]) id =
      (call.node?.filter fun node => node.key? = some id).or (lastAdded? calls id) := by
  have single : [call].filterMap Call.node? = call.node?.toList := by
    cases added : call.node? <;> simp [added]
  unfold lastAdded?
  rw [List.filterMap_append, single, List.filter_append, List.getLast?_append]
  cases call.node? with
  | none => rfl
  | some node => by_cases keyed : node.key? = some id <;> simp [keyed, Option.filter_some]

theorem key?_of_lastAdded? {calls : List Call} {id : String} {node : Node}
    (last : lastAdded? calls id = some node) : node.key? = some id :=
  of_decide_eq_true (List.mem_filter.1 (List.mem_of_getLast? last)).2

/-- After any calls, the graph has under each id what was added under it last. -/
theorem mem_afterCalls {calls : List Call} {node : Node} {id : String}
    (named : node.key? = some id) :
    node ∈ (afterCalls calls).nodes ↔ lastAdded? calls id = some node := by
  induction calls using List.reverseRecOn with
  | nil =>
    have isRoot : node ∈ (afterCalls []).nodes ↔ node = .root := List.mem_singleton
    rw [isRoot]
    constructor
    · rintro rfl
      cases named
    · intro found
      cases found
  | append_singleton calls call ih =>
    have distinct := (built_afterCalls calls).distinctKeys
    rw [afterCalls_append, distinct.mem_apply call named, ih, lastAdded?_append]
    cases call.node? with
    | none => simp
    | some added =>
      by_cases keyed : added.key? = some id
      · simp [keyed, Option.filter_some]
      · have differs : added ≠ node := fun same => keyed (same ▸ named)
        simp [keyed, differs, Option.filter_some]

theorem lastAsset?_of_lastAdded? {calls : List Call} {id : String} {a : Asset}
    (last : lastAdded? calls id = some (.asset a)) : lastAsset? calls id = some a := by
  have picked (nodes : List Node) : (nodes.filterMap Node.asset?).filter (fun a => a.id = id) =
      (nodes.filter fun node => node.key? = some id).filterMap Node.asset? := by
    rw [List.filter_filterMap, List.filterMap_filter]
    congr 1
    funext node
    cases node <;> simp [Node.asset?, Node.key?, Option.filter_some]
  obtain ⟨earlier, listed⟩ := List.getLast?_eq_some_iff.1 last
  unfold lastAsset?
  rw [picked, listed, List.filterMap_append]
  simp [Node.asset?]

end Contents

section Edges

theorem edgesAskedFor_append (g : AssetGraph) (calls : List Call) (call : Call) :
    edgesAskedFor g (calls ++ [call]) =
      edgesAskedFor g calls ++ (call.edge? (calls.foldl Call.apply g)).toList := by
  induction calls generalizing g with
  | nil => simp [edgesAskedFor]
  | cons first calls ih => simp [edgesAskedFor, ih]

theorem toOption_addEdge (g : AssetGraph) (source target : NodeId) :
    (g.addEdge source target).toOption =
      if source < g.nodes.length ∧ target < g.nodes.length then some (g.link source target)
      else none := by
  unfold addEdge checkNode
  by_cases start : source < g.nodes.length
  · by_cases stop : target < g.nodes.length
    · simp [start, stop, bind, Except.bind, pure, Except.pure, Except.toOption]
    · simp [start, stop, bind, Except.bind, Except.toOption]
  · simp [start, bind, Except.bind, Except.toOption]

/-- A call adds the edge that it asks for, behind the others, unless it is there. -/
theorem edges_apply (g : AssetGraph) (call : Call) :
    (call.apply g).edges = match call.edge? g with
      | some e => if e ∈ g.edges then g.edges else g.edges ++ [e]
      | none => g.edges := by
  have linked (h : AssetGraph) (source target : NodeId) :
      (h.link source target).edges =
        if (source, target) ∈ h.edges then h.edges else h.edges ++ [(source, target)] := by
    unfold link
    split
    · rfl
    · rfl
  cases call with
  | asset added => exact edges_addNode _ _
  | dependency added => exact edges_addNode _ _
  | entryDependency added =>
    have same : (g.addDependency added).1.edges = g.edges := edges_addNode _ _
    show ((g.addDependency added).1.link rootNode (g.addDependency added).2).edges = _
    rw [linked, same]
    rfl
  | edge source target =>
    by_cases there : source < g.nodes.length ∧ target < g.nodes.length
    · simp [Call.apply, Call.edge?, toOption_addEdge, there, linked]
    · simp [Call.apply, Call.edge?, toOption_addEdge, there]

/-- After any calls, the edges are those that were asked for, in the order of their first time. -/
theorem edges_afterCalls (calls : List Call) :
    (afterCalls calls).edges = (edgesAskedFor .empty calls).eraseDups := by
  induction calls using List.reverseRecOn with
  | nil => rfl
  | append_singleton calls call ih =>
    rw [afterCalls_append, edges_apply, edgesAskedFor_append, List.eraseDups_append, ih]
    rw [← afterCalls]
    cases call.edge? (afterCalls calls) with
    | none => simp [List.removeAll]
    | some e =>
      simp only [List.mem_eraseDups]
      by_cases known : e ∈ edgesAskedFor .empty calls
      · simp [List.removeAll, known]
      · simp [List.removeAll, known, List.eraseDups_cons]

theorem outgoing_afterCalls (calls : List Call) (n : NodeId) :
    (afterCalls calls).outgoing n = targetsAskedFor calls n := by
  rw [outgoing, edges_afterCalls]
  rfl

end Edges

end CodeSplit.AssetGraph
