import CodeSplit.Index
import CodeSplit.Proofs.Keyed

/-!
Where the assets and links of an index come from: from the nodes of the graph it was made of.
-/
namespace CodeSplit

namespace AssetGraph

variable {g : AssetGraph} {n : NodeId}

theorem mem_numbered {node : Node} : (n, node) ∈ g.numbered ↔ g.nodes[n]? = some node := by
  simp only [numbered, List.mem_map]
  constructor
  · intro listed
    obtain ⟨⟨other, m⟩, member, same⟩ := listed
    cases same
    exact List.mem_zipIdx_iff_getElem?.1 member
  · intro found
    exact ⟨(node, n), List.mem_zipIdx_iff_getElem?.2 found, rfl⟩

theorem mem_assets {a : Asset} : (n, a) ∈ g.assets ↔ g.nodes[n]? = some (.asset a) := by
  unfold assets
  rw [List.mem_filterMap]
  constructor
  · intro listed
    obtain ⟨⟨m, node⟩, member, mapped⟩ := listed
    cases node with
    | root => cases mapped
    | asset b =>
      cases mapped
      exact mem_numbered.1 member
    | dependency d => cases mapped
  · intro found
    exact ⟨(n, .asset a), mem_numbered.2 found, rfl⟩

theorem mem_dependencies {d : Dependency} :
    (n, d) ∈ g.dependencies ↔ g.nodes[n]? = some (.dependency d) := by
  unfold dependencies
  rw [List.mem_filterMap]
  constructor
  · intro listed
    obtain ⟨⟨m, node⟩, member, mapped⟩ := listed
    cases node with
    | root => cases mapped
    | asset b => cases mapped
    | dependency e =>
      cases mapped
      exact mem_numbered.1 member
  · intro found
    exact ⟨(n, .dependency d), mem_numbered.2 found, rfl⟩

theorem asset?_eq_some_iff {a : Asset} : g.asset? n = some a ↔ g.nodes[n]? = some (.asset a) := by
  unfold asset? node?
  cases g.nodes[n]? with
  | none => simp
  | some node => cases node <;> simp [Node.asset?]

theorem dependency?_eq_some_iff {d : Dependency} :
    g.dependency? n = some d ↔ g.nodes[n]? = some (.dependency d) := by
  unfold dependency? node?
  cases g.nodes[n]? with
  | none => simp
  | some node => cases node <;> simp [Node.dependency?]

end AssetGraph

namespace Index

variable {g : AssetGraph} {k : AssetKey}

theorem indexed_of_ofGraph {a : IndexedAsset} (found : (ofGraph g).indexed? k = some a) :
    ∃ id, indexedOfGraph? g (idsOfGraph g) id = some a := by
  have listed := List.mem_of_getElem? found
  obtain ⟨id, _, indexed⟩ := List.mem_filterMap.1 listed
  exact ⟨id, indexed⟩

/-- Every asset of the index is an asset of the graph. -/
theorem asset_mem_nodes {a : IndexedAsset} (found : (ofGraph g).indexed? k = some a) :
    .asset a.asset ∈ g.nodes := by
  obtain ⟨id, indexed⟩ := indexed_of_ofGraph found
  unfold indexedOfGraph? at indexed
  obtain ⟨⟨n, asset⟩, last, rfl⟩ := Option.map_eq_some_iff.1 indexed
  have listed := (List.mem_filter.1 (List.mem_of_getLast? last)).1
  exact List.mem_of_getElem? (AssetGraph.mem_assets.1 listed)

/-- Every link of the index is a dependency of the graph. -/
theorem dependency_mem_nodes {link : Link} (member : link ∈ (ofGraph g).links k) :
    .dependency link.dependency ∈ g.nodes := by
  unfold links at member
  split at member
  · rename_i a found
    obtain ⟨id, indexed⟩ := indexed_of_ofGraph found
    unfold indexedOfGraph? at indexed
    obtain ⟨_, _, rfl⟩ := Option.map_eq_some_iff.1 indexed
    obtain ⟨⟨n, _⟩, _, listed⟩ := List.mem_flatMap.1 member
    unfold linksOfNode at listed
    obtain ⟨d, _, mapped⟩ := List.mem_filterMap.1 listed
    obtain ⟨dependency, isNode, rfl⟩ := Option.map_eq_some_iff.1 mapped
    exact List.mem_of_getElem? (AssetGraph.dependency?_eq_some_iff.1 isNode)
  · cases member

end Index

end CodeSplit
