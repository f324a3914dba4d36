import CodeSplit.Proofs.GraphIndex
import CodeSplit.Proofs.Outcomes
import Mathlib.Data.List.Nodup
import Mathlib.Data.List.Perm.Basic

/-!
What an asset graph holds, apart from the numbers of its nodes. In a graph that was built by calls
every id belongs to one node, so that an edge is as good as the pair of what its ends hold, and
graphs that were built from the same contents in different orders have the same pairs.
-/
namespace CodeSplit.AssetGraph

/-- The graphs that calls build from the empty one. -/
inductive Built : AssetGraph → Prop
  | empty : Built .empty
  | addAsset {g : AssetGraph} (asset : Asset) : Built g → Built (g.addAsset asset).1
  | addDependency {g : AssetGraph} (dependency : Dependency) :
    Built g → Built (g.addDependency dependency).1
  | addEntryDependency {g : AssetGraph} (dependency : Dependency) :
    Built g → Built (g.addEntryDependency dependency).1
  | addEdge {g h : AssetGraph} {source target : NodeId} :
    Built g → g.addEdge source target = .ok h → Built h

/-- The edges by what their ends hold. -/
def joins (g : AssetGraph) : List (Node × Node) :=
  g.edges.filterMap fun e => (g.node? e.1).bind fun a => (g.node? e.2).map fun b => (a, b)

/-- What the edges of a node with these contents lead to, in the order the edges were added. -/
def leadsTo (g : AssetGraph) (node : Node) : List Node :=
  (g.joins.filter fun e => e.1 = node).map Prod.snd

/-- The assets that declare a dependency. -/
def declaredBy (g : AssetGraph) (d : Dependency) : List Asset :=
  (g.joins.filter fun e => e.2 = .dependency d).filterMap fun e => e.1.asset?

/-- The assets that a dependency resolved to. -/
def resolvedTo (g : AssetGraph) (d : Dependency) : List Asset :=
  (g.leadsTo (.dependency d)).filterMap Node.asset?

/-- Each dependency is declared by at most one asset and resolved to at most one. -/
def SingleEnded (g : AssetGraph) : Prop :=
  ∀ d ∈ g.dependencies, (g.declaredBy d.2).length ≤ 1 ∧ (g.resolvedTo d.2).length ≤ 1

/-- Both graphs have the same nodes and the same edges between them, in any order. -/
structure SameContents (g h : AssetGraph) : Prop where
  nodes : g.nodes.Perm h.nodes
  joins : g.joins.Perm h.joins

/-- Every id belongs to one node, and there is one root. -/
def DistinctKeys (g : AssetGraph) : Prop := (g.nodes.map Node.key?).Nodup

variable {g h : AssetGraph}

theorem DistinctKeys.addNode {key : String} {node : Node} (distinct : g.DistinctKeys)
    (named : node.key? = some key) : (g.addNode key node).1.DistinctKeys := by
  unfold DistinctKeys at *
  unfold AssetGraph.addNode nodeOfKey?
  cases found : g.nodes.findIdx? fun node => node.key? = some key with
  | none =>
    have fresh : some key ∉ g.nodes.map Node.key? := by simpa using found
    have extended : (g.nodes.map Node.key? ++ [some key]).Nodup := by
      rw [List.nodup_append]
      refine ⟨distinct, List.nodup_singleton _, ?_⟩
      intro a listed b single same
      rw [List.mem_singleton.1 single] at same
      exact fresh (same ▸ listed)
    simpa [named] using extended
  | some n =>
    obtain ⟨inside, holds, _⟩ := List.findIdx?_eq_some_iff_getElem.1 found
    have listed : n < (g.nodes.map Node.key?).length := by simpa using inside
    have known : some key = (g.nodes.map Node.key?)[n] := by
      rw [List.getElem_map]
      exact (of_decide_eq_true holds).symm
    have kept : (g.nodes.map Node.key?).set n (some key) = g.nodes.map Node.key? := by
      rw [known, List.set_getElem_self]
    simpa [List.map_set, named, kept] using distinct

theorem nodes_link (source target : NodeId) : (g.link source target).nodes = g.nodes := by
  unfold link
  split
  · rfl
  · rfl

theorem nodes_of_addEdge {source target : NodeId} (added : g.addEdge source target = .ok h) :
    h.nodes = g.nodes := by
  unfold addEdge at added
  obtain ⟨_, _, added⟩ := bind_eq_ok_iff.1 added
  obtain ⟨_, _, added⟩ := bind_eq_ok_iff.1 added
  cases added
  exact nodes_link source target

theorem Built.distinctKeys (built : g.Built) : g.DistinctKeys := by
  induction built with
  | empty => exact List.nodup_singleton _
  | addAsset asset _ ih => exact ih.addNode rfl
  | addDependency dependency _ ih => exact ih.addNode rfl
  | @addEntryDependency g dependency _ ih =>
    have added : (g.addDependency dependency).1.DistinctKeys := ih.addNode rfl
    unfold DistinctKeys AssetGraph.addEntryDependency
    rw [nodes_link]
    exact added
  | addEdge _ added ih =>
    unfold DistinctKeys
    rw [nodes_of_addEdge added]
    exact ih

theorem nodup_link {source target : NodeId} (distinct : g.edges.Nodup) :
    (g.link source target).edges.Nodup := by
  unfold link
  split
  · exact distinct
  · rename_i absent
    rw [← List.concat_eq_append]
    exact distinct.concat absent

theorem edges_addNode (key : String) (node : Node) : (g.addNode key node).1.edges = g.edges := by
  unfold addNode
  split
  · rfl
  · rfl

/-- No edge is there twice. -/
theorem Built.nodup_edges (built : g.Built) : g.edges.Nodup := by
  induction built with
  | empty => exact List.nodup_nil
  | addAsset asset _ ih => exact (edges_addNode _ _).symm ▸ ih
  | addDependency dependency _ ih => exact (edges_addNode _ _).symm ▸ ih
  | @addEntryDependency g dependency _ ih =>
    have same : (g.addDependency dependency).1.edges = g.edges := edges_addNode _ _
    exact nodup_link (same.symm ▸ ih)
  | addEdge _ added ih =>
    unfold AssetGraph.addEdge at added
    obtain ⟨_, _, added⟩ := bind_eq_ok_iff.1 added
    obtain ⟨_, _, added⟩ := bind_eq_ok_iff.1 added
    cases added
    exact nodup_link ih

theorem Built.link (built : g.Built) {source target : NodeId} (start : source < g.nodes.length)
    (stop : target < g.nodes.length) : (g.link source target).Built := by
  have added : g.addEdge source target = .ok (g.link source target) := by
    unfold AssetGraph.addEdge checkNode
    rw [if_pos start, if_pos stop]
    rfl
  exact .addEdge built added

theorem DistinctKeys.node_eq (distinct : g.DistinctKeys) {m n : NodeId} {a b : Node}
    (left : g.node? m = some a) (right : g.node? n = some b) (same : a.key? = b.key?) : m = n := by
  unfold node? at left right
  have inside : m < (g.nodes.map Node.key?).length := by
    rw [List.length_map]
    exact (List.getElem?_eq_some_iff.1 left).1
  refine (List.getElem?_inj inside distinct).1 ?_
  rw [List.getElem?_map, List.getElem?_map, left, right, Option.map_some, Option.map_some, same]

theorem DistinctKeys.dependency_eq (distinct : g.DistinctKeys) {d e : Dependency}
    (left : .dependency d ∈ g.nodes) (right : .dependency e ∈ g.nodes) (same : d.id = e.id) :
    d = e := by
  obtain ⟨m, holds⟩ := List.mem_iff_getElem?.1 left
  obtain ⟨n, holdsToo⟩ := List.mem_iff_getElem?.1 right
  have sameNode : m = n := distinct.node_eq holds holdsToo (congrArg some same)
  subst sameNode
  cases holds.symm.trans holdsToo
  rfl

/-- What the edges of a node lead to depends only on what the node holds. -/
theorem DistinctKeys.filterMap_outgoing (distinct : g.DistinctKeys) {n : NodeId} {node : Node}
    (holds : g.node? n = some node) : (g.outgoing n).filterMap g.node? = g.leadsTo node := by
  unfold outgoing leadsTo joins
  induction g.edges with
  | nil => rfl
  | cons e edges ih =>
    by_cases source : e.1 = n
    · cases ends : g.node? e.2 with
      | none => simpa [source, holds, ends] using ih
      | some b => simpa [source, holds, ends] using ih
    · have differs : ∀ a, g.node? e.1 = some a → a ≠ node := by
        intro a found same
        exact source (distinct.node_eq found holds (by rw [same]))
      cases found : g.node? e.1 with
      | none => simpa [source, found] using ih
      | some a =>
        cases ends : g.node? e.2 with
        | none => simpa [source, found, ends] using ih
        | some b => simpa [source, found, ends, differs a found] using ih

theorem find?_bind_eq_head? {α β : Type} (f : α → Option β) (xs : List α) :
    (xs.find? fun x => (f x).isSome).bind f = (xs.filterMap f).head? := by
  induction xs with
  | nil => rfl
  | cons x xs ih =>
    cases found : f x with
    | none => simpa [found] using ih
    | some b => simp [found]

theorem DistinctKeys.resolve?_bind (distinct : g.DistinctKeys) {n : NodeId} {d : Dependency}
    (holds : g.node? n = some (.dependency d)) :
    (g.resolve? n).bind g.asset? = (g.resolvedTo d).head? := by
  have assets : g.resolvedTo d = (g.outgoing n).filterMap g.asset? := by
    unfold resolvedTo
    rw [← distinct.filterMap_outgoing holds, List.filterMap_filterMap]
    rfl
  rw [assets, resolve?, find?_bind_eq_head?]

theorem mem_joins {a b : Node} :
    (a, b) ∈ g.joins ↔ ∃ e ∈ g.edges, g.node? e.1 = some a ∧ g.node? e.2 = some b := by
  simp only [joins, List.mem_filterMap, Option.bind_eq_some_iff, Option.map_eq_some_iff,
    Prod.mk.injEq]
  constructor
  · intro found
    obtain ⟨e, member, _, start, _, ends, rfl, rfl⟩ := found
    exact ⟨e, member, start, ends⟩
  · intro found
    obtain ⟨e, member, start, ends⟩ := found
    exact ⟨e, member, a, start, b, ends, rfl, rfl⟩

theorem mem_leadsTo {a b : Node} : b ∈ g.leadsTo a ↔ (a, b) ∈ g.joins := by
  simp only [leadsTo, List.mem_map, List.mem_filter, decide_eq_true_eq]
  constructor
  · intro found
    obtain ⟨⟨_, _⟩, ⟨member, rfl⟩, rfl⟩ := found
    exact member
  · intro member
    exact ⟨(a, b), ⟨member, rfl⟩, rfl⟩

/-- The pairs that start with one thing end with different ones. -/
theorem nodup_targets {α : Type} [DecidableEq α] {pairs : List (α × α)} (distinct : pairs.Nodup)
    (source : α) : ((pairs.filter fun e => e.1 = source).map Prod.snd).Nodup := by
  refine (distinct.filter _).map_on ?_
  intro e left f right same
  have starts := of_decide_eq_true (List.mem_filter.1 left).2
  have startsToo := of_decide_eq_true (List.mem_filter.1 right).2
  exact Prod.ext (starts.trans startsToo.symm) same

theorem Built.nodup_leadsTo (built : g.Built) (node : Node) : (g.leadsTo node).Nodup := by
  have joins : g.joins.Nodup := by
    refine built.nodup_edges.filterMap ?_
    rintro ⟨m, n⟩ ⟨m', n'⟩ ⟨a, b⟩ left right
    simp only [Option.mem_def, Option.bind_eq_some_iff, Option.map_eq_some_iff,
      Prod.mk.injEq] at left right
    obtain ⟨_, start, _, stop, rfl, rfl⟩ := left
    obtain ⟨_, startToo, _, stopToo, rfl, rfl⟩ := right
    rw [built.distinctKeys.node_eq start startToo rfl, built.distinctKeys.node_eq stop stopToo rfl]
  exact nodup_targets joins node

theorem Node.asset?_eq_some_iff {node : Node} {a : Asset} :
    node.asset? = some a ↔ node = .asset a := by
  cases node <;> simp [asset?]

theorem Node.dependency?_eq_some_iff {node : Node} {d : Dependency} :
    node.dependency? = some d ↔ node = .dependency d := by
  cases node <;> simp [dependency?]

theorem mem_declaredBy {d : Dependency} {a : Asset} :
    a ∈ g.declaredBy d ↔ .dependency d ∈ g.leadsTo (.asset a) := by
  simp only [declaredBy, List.mem_filterMap, List.mem_filter, decide_eq_true_eq, mem_leadsTo,
    Node.asset?_eq_some_iff]
  constructor
  · intro found
    obtain ⟨⟨_, _⟩, ⟨member, rfl⟩, rfl⟩ := found
    exact member
  · intro member
    exact ⟨(.asset a, .dependency d), ⟨member, rfl⟩, rfl⟩

theorem mem_resolvedTo {d : Dependency} {a : Asset} :
    a ∈ g.resolvedTo d ↔ .asset a ∈ g.leadsTo (.dependency d) := by
  simp only [resolvedTo, List.mem_filterMap, Node.asset?_eq_some_iff, exists_eq_right]

theorem dependency_of_join {a b : Node} {d : Dependency} (join : (a, b) ∈ g.joins)
    (ends : a = .dependency d ∨ b = .dependency d) : ∃ n, (n, d) ∈ g.dependencies := by
  obtain ⟨e, _, start, stop⟩ := mem_joins.1 join
  rcases ends with rfl | rfl
  · exact ⟨e.1, mem_dependencies.2 start⟩
  · exact ⟨e.2, mem_dependencies.2 stop⟩

theorem SingleEnded.declaredBy_le (single : g.SingleEnded) (d : Dependency) :
    (g.declaredBy d).length ≤ 1 := by
  cases found : g.declaredBy d with
  | nil => simp
  | cons a rest =>
    have join := mem_leadsTo.1 (mem_declaredBy.1 (found ▸ List.mem_cons_self))
    obtain ⟨n, listed⟩ := dependency_of_join join (.inr rfl)
    exact found ▸ (single _ listed).1

theorem SingleEnded.resolvedTo_le (single : g.SingleEnded) (d : Dependency) :
    (g.resolvedTo d).length ≤ 1 := by
  cases found : g.resolvedTo d with
  | nil => simp
  | cons a rest =>
    have join := mem_leadsTo.1 (mem_resolvedTo.1 (found ▸ List.mem_cons_self))
    obtain ⟨n, listed⟩ := dependency_of_join join (.inl rfl)
    exact found ▸ (single _ listed).2

theorem eq_singleton_or_nil {α : Type} {xs : List α} (few : xs.length ≤ 1) :
    (∃ x, xs = [x]) ∨ xs = [] := by
  cases xs with
  | nil => exact .inr rfl
  | cons x rest => exact .inl ⟨x, by simpa using few⟩

/-- A dependency has one declaring asset. -/
theorem SingleEnded.declaring_eq (single : g.SingleEnded) {d : Dependency} {a b : Asset}
    (left : .dependency d ∈ g.leadsTo (.asset a)) (right : .dependency d ∈ g.leadsTo (.asset b)) :
    a = b := by
  rw [← mem_declaredBy] at left right
  obtain ⟨c, listed⟩ | listed := eq_singleton_or_nil (single.declaredBy_le d)
  · rw [listed, List.mem_singleton] at left right
    rw [left, right]
  · rw [listed] at left
    cases left

theorem SameContents.perm_leadsTo (same : g.SameContents h) (node : Node) :
    (g.leadsTo node).Perm (h.leadsTo node) :=
  (same.joins.filter _).map _

theorem SameContents.resolvedTo_eq (same : g.SameContents h) (single : g.SingleEnded)
    (d : Dependency) : g.resolvedTo d = h.resolvedTo d := by
  have perm : (g.resolvedTo d).Perm (h.resolvedTo d) :=
    (same.perm_leadsTo (.dependency d)).filterMap _
  obtain ⟨a, listed⟩ | listed := eq_singleton_or_nil (single.resolvedTo_le d)
  · rw [listed] at perm ⊢
    exact (List.singleton_perm.1 perm)
  · rw [listed] at perm ⊢
    exact perm.nil_eq

end CodeSplit.AssetGraph
