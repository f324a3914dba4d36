import CodeSplit.Proofs.GraphContents

/-!
The index of a graph up to the order of links. Assets are numbered by their ids, so graphs with the
same contents have indexes that differ only in the order in which an asset lists its dependencies.
-/
namespace CodeSplit

/-- An asset without its dependencies. -/
def IndexedAsset.bare (a : IndexedAsset) : IndexedAsset := { a with links := [] }

namespace Index

/-- An index without dependencies. -/
def bare (i : Index) : Index := ⟨i.assets.map IndexedAsset.bare⟩

/-- Both indexes have the same assets, and each asset has the same links in some order. -/
structure Agree (i j : Index) : Prop where
  bare : i.bare = j.bare
  links : ∀ k, (i.links k).Perm (j.links k)

variable {i j : Index}

theorem indexed?_bare (k : AssetKey) :
    i.bare.indexed? k = (i.indexed? k).map IndexedAsset.bare := by
  simp [bare, indexed?]

@[simp] theorem size_bare : i.bare.size = i.size := by
  simp [bare, size]

@[simp] theorem asset?_bare (k : AssetKey) : i.bare.asset? k = i.asset? k := by
  unfold asset?
  rw [indexed?_bare, Option.map_map]
  rfl

@[simp] theorem keyOf?_bare (id : String) : i.bare.keyOf? id = i.keyOf? id := by
  unfold keyOf? bare
  rw [List.findIdx?_map]
  rfl

@[simp] theorem triggersOf_bare (k : AssetKey) (d : Dependency) (target : AssetKey) :
    i.bare.triggersOf k d target = i.triggersOf k d target := by
  unfold triggersOf
  rw [indexed?_bare, indexed?_bare]
  cases i.indexed? k with
  | none => rfl
  | some a =>
    cases i.indexed? target with
    | none => rfl
    | some b => rfl

theorem dependencyCount_eq :
    i.dependencyCount = total (i.keys.map fun k => (i.links k).length) := by
  unfold dependencyCount keys size
  congr 1
  apply List.ext_getElem (by simp)
  intro k inside _
  have inside : k < i.assets.length := by simpa using inside
  simp [links, indexed?, inside]

namespace Agree

theorem size_eq (agree : i.Agree j) : i.size = j.size := by
  rw [← size_bare, agree.bare, size_bare]

theorem keys_eq (agree : i.Agree j) : i.keys = j.keys := by
  rw [keys, keys, agree.size_eq]

theorem asset?_eq (agree : i.Agree j) : i.asset? = j.asset? := by
  funext k
  rw [← asset?_bare, agree.bare, asset?_bare]

theorem asset_eq (agree : i.Agree j) : i.asset = j.asset := by
  funext k
  rw [asset, asset, agree.asset?_eq]

theorem idOf_eq (agree : i.Agree j) : i.idOf = j.idOf := by
  funext k
  rw [idOf, idOf, agree.asset_eq]

theorem idsOf_eq (agree : i.Agree j) : i.idsOf = j.idsOf := by
  funext ks
  rw [idsOf, idsOf, agree.idOf_eq]

theorem totalSize_eq (agree : i.Agree j) : i.totalSize = j.totalSize := by
  have sizes : i.sizeOf = j.sizeOf := by
    funext k
    rw [sizeOf, sizeOf, agree.asset_eq]
  funext ks
  rw [totalSize, totalSize, sizes]

theorem keyOf?_eq (agree : i.Agree j) : i.keyOf? = j.keyOf? := by
  funext id
  rw [← keyOf?_bare, agree.bare, keyOf?_bare]

theorem triggersOf_eq (agree : i.Agree j) : i.triggersOf = j.triggersOf := by
  funext k d target
  rw [← triggersOf_bare, agree.bare, triggersOf_bare]

theorem dependencyCount_eq (agree : i.Agree j) : i.dependencyCount = j.dependencyCount := by
  have lengths (k : AssetKey) : (i.links k).length = (j.links k).length :=
    (agree.links k).length_eq
  rw [Index.dependencyCount_eq, Index.dependencyCount_eq, agree.keys_eq]
  simp only [lengths]

end Agree

/-- Each id belongs to one known dependency, and each dependency to one asset, which lists it with
one target. -/
structure DeclaredOnce (i : Index) (known : Dependency → Prop) : Prop where
  apart : ∀ {d e}, known d → known e → d.id = e.id → d = e
  linked : ∀ {k link}, link ∈ i.links k → known link.dependency
  once : ∀ {k m link other}, link ∈ i.links k → other ∈ i.links m →
    link.dependency = other.dependency → k = m ∧ link = other

theorem DeclaredOnce.link_eq {known : Dependency → Prop} (declared : i.DeclaredOnce known)
    {k m : AssetKey} {link other : Link} (left : link ∈ i.links k) (right : other ∈ i.links m)
    (same : link.dependency.id = other.dependency.id) : k = m ∧ link = other :=
  declared.once left right (declared.apart (declared.linked left) (declared.linked right) same)

section OfGraph

open AssetGraph (Node)

variable {g h : AssetGraph}

theorem mem_idsOfGraph {id : String} :
    id ∈ idsOfGraph g ↔ ∃ a, Node.asset a ∈ g.nodes ∧ a.id = id := by
  unfold idsOfGraph
  rw [← KeySet.mem_def, KeySet.mem_ofList, List.mem_map]
  constructor
  · intro found
    obtain ⟨⟨n, a⟩, listed, rfl⟩ := found
    exact ⟨a, List.mem_of_getElem? (AssetGraph.mem_assets.1 listed), rfl⟩
  · intro found
    obtain ⟨a, listed, rfl⟩ := found
    obtain ⟨n, holds⟩ := List.mem_iff_getElem?.1 listed
    exact ⟨(n, a), AssetGraph.mem_assets.2 holds, rfl⟩

theorem nodup_idsOfGraph : (idsOfGraph g).Nodup := KeySet.nodup_toList _

theorem idsOfGraph_eq (same : g.SameContents h) : idsOfGraph g = idsOfGraph h := by
  unfold idsOfGraph
  congr 1
  apply KeySet.ext
  intro id
  have left : id ∈ idsOfGraph g ↔ _ := mem_idsOfGraph
  have right : id ∈ idsOfGraph h ↔ _ := mem_idsOfGraph
  unfold idsOfGraph at left right
  rw [KeySet.mem_def, KeySet.mem_def, left, right]
  simp only [same.nodes.mem_iff]

/-- The link of a dependency of the graph, which does not depend on where the dependency stands. -/
def linkOf (g : AssetGraph) (ids : List String) (d : Dependency) : Link where
  dependency := d
  target := (g.resolvedTo d).head?.bind fun a => ids.findIdx? (· = a.id)

theorem linksOfNode_eq (distinct : g.DistinctKeys) {n : NodeId} {node : Node}
    (holds : g.node? n = some node) (ids : List String) :
    linksOfNode g ids n =
      (g.leadsTo node).filterMap fun node => node.dependency?.map (linkOf g ids) := by
  rw [← distinct.filterMap_outgoing holds, List.filterMap_filterMap]
  apply List.filterMap_congr
  intro m _
  unfold AssetGraph.dependency?
  cases found : g.node? m with
  | none => rfl
  | some target =>
    cases target with
    | root => rfl
    | asset a => rfl
    | dependency d =>
      simp only [Option.bind_some, Node.dependency?, Option.map_some, linkOf,
        distinct.resolve?_bind found]

theorem nodup_assets : g.assets.Nodup := by
  have numbers : g.numbered.map Prod.fst = List.range' 0 g.nodes.length := by
    unfold AssetGraph.numbered
    rw [List.map_map]
    exact List.zipIdx_map_snd 0 g.nodes
  have distinct : g.numbered.Nodup := .of_map Prod.fst (numbers ▸ List.nodup_range')
  refine distinct.filterMap ?_
  intro e f found left right
  obtain ⟨a, leftAsset, rfl⟩ := Option.map_eq_some_iff.1 left
  obtain ⟨b, rightAsset, same⟩ := Option.map_eq_some_iff.1 right
  obtain ⟨sameNumber, rfl⟩ := Prod.mk.inj same
  rw [AssetGraph.Node.asset?_eq_some_iff] at leftAsset rightAsset
  exact Prod.ext sameNumber.symm (leftAsset.trans rightAsset.symm)

/-- The only node that has an asset with its id. -/
theorem filter_assets (distinct : g.DistinctKeys) {n : NodeId} {a : Asset}
    (holds : g.node? n = some (.asset a)) :
    (g.assets.filter fun e => e.2.id = a.id) = [(n, a)] := by
  apply List.perm_singleton.1
  rw [List.perm_ext_iff_of_nodup (nodup_assets.filter _) (List.nodup_singleton _)]
  intro e
  rw [List.mem_filter, List.mem_singleton, decide_eq_true_eq]
  constructor
  · intro found
    obtain ⟨m, b⟩ := e
    have holdsToo : g.node? m = some (.asset b) := AssetGraph.mem_assets.1 found.1
    have same : m = n := distinct.node_eq holdsToo holds (congrArg some found.2)
    subst same
    cases holdsToo.symm.trans holds
    rfl
  · intro same
    subst same
    exact ⟨AssetGraph.mem_assets.2 holds, rfl⟩

theorem indexedOfGraph?_eq (distinct : g.DistinctKeys) {a : Asset} (listed : .asset a ∈ g.nodes)
    (ids : List String) :
    indexedOfGraph? g ids a.id = some
      { asset := a
        envId := a.env.id
        links := (g.leadsTo (.asset a)).filterMap fun n => n.dependency?.map (linkOf g ids) } := by
  obtain ⟨n, holds⟩ := List.mem_iff_getElem?.1 listed
  unfold indexedOfGraph?
  simp only [filter_assets distinct holds, List.getLast?_singleton, Option.map_some,
    List.flatMap_singleton, linksOfNode_eq distinct holds]

theorem getElem?_filterMap {α β : Type} {f : α → Option β} {xs : List α}
    (all : ∀ x ∈ xs, (f x).isSome = true) (k : Nat) : (xs.filterMap f)[k]? = xs[k]?.bind f := by
  induction xs generalizing k with
  | nil => rfl
  | cons x xs ih =>
    obtain ⟨b, found⟩ := Option.isSome_iff_exists.1 (all x List.mem_cons_self)
    rw [List.filterMap_cons_some found]
    cases k with
    | zero => simp [found]
    | succ k => simpa using ih (fun y member => all y (List.mem_cons_of_mem _ member)) k

theorem isSome_indexedOfGraph? {id : String} (member : id ∈ idsOfGraph g) (ids : List String) :
    (indexedOfGraph? g ids id).isSome = true := by
  obtain ⟨a, listed, rfl⟩ := mem_idsOfGraph.1 member
  obtain ⟨n, holds⟩ := List.mem_iff_getElem?.1 listed
  have some : (n, a) ∈ g.assets.filter fun e => e.2.id = a.id :=
    List.mem_filter.2 ⟨AssetGraph.mem_assets.2 holds, by simp⟩
  unfold indexedOfGraph?
  rw [Option.isSome_map, List.getLast?_isSome]
  exact List.ne_nil_of_mem some

/-- The keys of an index are the places of the ids. -/
theorem indexed?_ofGraph (k : AssetKey) :
    (ofGraph g).indexed? k = (idsOfGraph g)[k]?.bind (indexedOfGraph? g (idsOfGraph g)) :=
  getElem?_filterMap (fun _ member => isSome_indexedOfGraph? member _) k

/-- At each key, graphs with the same contents have the same asset with the same links. -/
theorem indexed?_of_sameContents (same : g.SameContents h) (single : g.SingleEnded)
    (distinct : g.DistinctKeys) (distinctToo : h.DistinctKeys) (k : AssetKey) :
    ((ofGraph g).indexed? k = none ∧ (ofGraph h).indexed? k = none) ∨
      ∃ a links others, (ofGraph g).indexed? k = some ⟨a, a.env.id, links⟩ ∧
        (ofGraph h).indexed? k = some ⟨a, a.env.id, others⟩ ∧ links.Perm others := by
  have sameLinks : linkOf g = linkOf h := by
    funext ids d
    unfold linkOf
    rw [same.resolvedTo_eq single]
  rw [indexed?_ofGraph, indexed?_ofGraph, ← idsOfGraph_eq same]
  cases found : (idsOfGraph g)[k]? with
  | none => exact .inl ⟨rfl, rfl⟩
  | some id =>
    obtain ⟨a, listed, rfl⟩ := mem_idsOfGraph.1 (List.mem_of_getElem? found)
    have listedToo := same.nodes.mem_iff.1 listed
    refine .inr ⟨a, _, _, indexedOfGraph?_eq distinct listed _,
      indexedOfGraph?_eq distinctToo listedToo _, ?_⟩
    rw [sameLinks]
    exact (same.perm_leadsTo _).filterMap _

/-- Graphs with the same contents have indexes that agree. -/
theorem agree_ofGraph (same : g.SameContents h) (single : g.SingleEnded)
    (distinct : g.DistinctKeys) (distinctToo : h.DistinctKeys) : (ofGraph g).Agree (ofGraph h) := by
  have each := indexed?_of_sameContents same single distinct distinctToo
  constructor
  · have entries : ∀ k, (ofGraph g).bare.indexed? k = (ofGraph h).bare.indexed? k := by
      intro k
      rw [indexed?_bare, indexed?_bare]
      rcases each k with ⟨left, right⟩ | ⟨a, links, others, left, right, _⟩
      · rw [left, right]
      · rw [left, right]
        rfl
    have lists : (ofGraph g).bare.assets = (ofGraph h).bare.assets := List.ext_getElem? entries
    exact congrArg Index.mk lists
  · intro k
    unfold links
    rcases each k with ⟨left, right⟩ | ⟨a, links, others, left, right, perm⟩
    · rw [left, right]
    · rw [left, right]
      exact perm

/-- A link of the index is the link of a dependency that an edge leads to from the asset. -/
theorem link_ofGraph (distinct : g.DistinctKeys) {k : AssetKey} {link : Link}
    (member : link ∈ (ofGraph g).links k) :
    ∃ a, (idsOfGraph g)[k]? = some a.id ∧ .dependency link.dependency ∈ g.leadsTo (.asset a) ∧
      link = linkOf g (idsOfGraph g) link.dependency := by
  unfold links at member
  rw [indexed?_ofGraph] at member
  cases found : (idsOfGraph g)[k]? with
  | none =>
    rw [found] at member
    cases member
  | some id =>
    obtain ⟨a, listed, rfl⟩ := mem_idsOfGraph.1 (List.mem_of_getElem? found)
    rw [found, Option.bind_some, indexedOfGraph?_eq distinct listed] at member
    obtain ⟨node, leads, made⟩ := List.mem_filterMap.1 member
    obtain ⟨d, isDependency, rfl⟩ := Option.map_eq_some_iff.1 made
    rw [AssetGraph.Node.dependency?_eq_some_iff] at isDependency
    subst isDependency
    exact ⟨a, rfl, leads, rfl⟩

theorem declaredOnce_ofGraph (single : g.SingleEnded) (distinct : g.DistinctKeys) :
    (ofGraph g).DeclaredOnce fun d => .dependency d ∈ g.nodes where
  apart := distinct.dependency_eq
  linked := dependency_mem_nodes
  once := by
    intro k m link other left right same
    obtain ⟨a, key, leads, isLink⟩ := link_ofGraph distinct left
    obtain ⟨b, keyToo, leadsToo, isLinkToo⟩ := link_ofGraph distinct right
    rw [← same] at leadsToo isLinkToo
    have sameAsset : a = b := single.declaring_eq leads leadsToo
    subst sameAsset
    refine ⟨?_, isLink.trans isLinkToo.symm⟩
    have inside := (List.getElem?_eq_some_iff.1 key).1
    exact (List.getElem?_inj inside nodup_idsOfGraph).1 (key.trans keyToo.symm)

theorem map_dependencies :
    g.dependencies.map Prod.snd = g.nodes.filterMap Node.dependency? := by
  have nodes : g.numbered.map Prod.snd = g.nodes := by
    unfold AssetGraph.numbered
    rw [List.map_map]
    exact List.zipIdx_map_fst 0 g.nodes
  unfold AssetGraph.dependencies
  rw [List.map_filterMap, ← nodes, List.filterMap_map]
  apply List.filterMap_congr
  intro e _
  obtain ⟨n, node⟩ := e
  cases node with
  | root => rfl
  | asset a => rfl
  | dependency d => rfl

theorem map_entryDependencies :
    (entryDependencies g).map Prod.snd = arrange (fun a b => KeyOrder.before a.id b.id)
      ((g.nodes.filterMap Node.dependency?).filter Dependency.isEntry) := by
  let before (a b : Dependency) : Bool := KeyOrder.before a.id b.id
  rw [← map_dependencies, List.filter_map]
  exact arrange_map Prod.snd before (g.dependencies.filter fun e => e.2.isEntry)

theorem entryDependencies_eq (same : g.SameContents h) (single : g.SingleEnded)
    (distinct : g.DistinctKeys) :
    (entryDependencies g).map Prod.snd = (entryDependencies h).map Prod.snd := by
  rw [map_entryDependencies, map_entryDependencies]
  apply arrange_eq_of_perm ((same.nodes.filterMap _).filter _)
  intro d left e right
  have listed {d : Dependency}
      (found : d ∈ (g.nodes.filterMap Node.dependency?).filter Dependency.isEntry) :
      .dependency d ∈ g.nodes := by
    obtain ⟨node, member, isDependency⟩ := List.mem_filterMap.1 (List.mem_filter.1 found).1
    rw [AssetGraph.Node.dependency?_eq_some_iff] at isDependency
    exact isDependency ▸ member
  exact (declaredOnce_ofGraph single distinct).apart (listed left) (listed right)

/-- The entry of a dependency by the asset it resolved to. -/
def entryTo (i : Index) (resolved : Dependency → List Asset) (dependency : Dependency) :
    Except Fault Entry :=
  match (resolved dependency).head?.bind fun a => i.keyOf? a.id with
  | some asset => .ok { dependency, asset, target := dependency.target.getD {} }
  | none => .error (.failure (.unresolvedEntry dependency.specifier))

theorem mem_entryDependencies_iff {n : NodeId} {d : Dependency} :
    (n, d) ∈ entryDependencies g ↔ (n, d) ∈ g.dependencies ∧ d.isEntry = true := by
  unfold entryDependencies
  rw [(perm_arrange _ _).mem_iff, List.mem_filter]

theorem mem_entryDependencies {n : NodeId} {d : Dependency}
    (listed : (n, d) ∈ entryDependencies g) : g.node? n = some (.dependency d) :=
  AssetGraph.mem_dependencies.1 (mem_entryDependencies_iff.1 listed).1

theorem mapM_entryOf (distinct : g.DistinctKeys) :
    ((entryDependencies g).mapM fun e => i.entryOf g e.1 e.2) =
      ((entryDependencies g).map Prod.snd).mapM (i.entryTo g.resolvedTo) := by
  rw [List.mapM_map]
  apply mapM_congr
  intro e listed
  unfold entryOf entryTo
  simp only [distinct.resolve?_bind (mem_entryDependencies listed)]
  rfl

theorem entriesByTarget_eq (same : g.SameContents h) (single : g.SingleEnded)
    (distinct : g.DistinctKeys) (distinctToo : h.DistinctKeys) :
    (ofGraph g).entriesByTarget g = (ofGraph h).entriesByTarget h := by
  have agree := agree_ofGraph same single distinct distinctToo
  have sameDependencies := entryDependencies_eq same single distinct
  have sameEntries : (ofGraph g).entryTo g.resolvedTo = (ofGraph h).entryTo h.resolvedTo := by
    funext d
    rw [entryTo, entryTo, same.resolvedTo_eq single, agree.keyOf?_eq]
  have sameEmpty : (entryDependencies g).isEmpty = (entryDependencies h).isEmpty := by
    simpa using congrArg List.isEmpty sameDependencies
  unfold entriesByTarget
  simp only [mapM_entryOf distinct, mapM_entryOf distinctToo, sameDependencies, sameEntries,
    sameEmpty]

/-- Sorting entries by their targets adds none, and each comes under the name of its target. -/
theorem mem_of_foldl_update (entries : List Entry) (m : KeyMap String (List Entry)) {name : String}
    {sorted : List Entry} {e : Entry}
    (found : (entries.foldl (fun m e => m.update e.target.name [] (· ++ [e])) m).get? name =
      some sorted) (listed : e ∈ sorted) :
    (e ∈ entries ∧ e.target.name = name) ∨ ∃ before, m.get? name = some before ∧ e ∈ before := by
  induction entries generalizing m with
  | nil => exact .inr ⟨sorted, found, listed⟩
  | cons f entries ih =>
    rcases ih _ found with ⟨member, isName⟩ | ⟨before, known, member⟩
    · exact .inl ⟨List.mem_cons_of_mem _ member, isName⟩
    · rw [KeyMap.get?_update] at known
      split at known
      · rename_i sameName
        subst sameName
        cases known
        rcases List.mem_append.1 member with member | member
        · cases old : m.get? f.target.name with
          | none =>
            rw [old] at member
            cases member
          | some before =>
            rw [old] at member
            exact .inr ⟨before, rfl, member⟩
        · rw [List.mem_singleton.1 member]
          exact .inl ⟨List.mem_cons_self, rfl⟩
      · exact .inr ⟨before, known, member⟩

/-- The entries of a target have its name, and are made of entry dependencies of the graph. -/
theorem entry_of_target {m : KeyMap String (List Entry)} (success : i.entriesByTarget g = .ok m)
    {name : String} {entries : List Entry} (found : m.get? name = some entries) {e : Entry}
    (listed : e ∈ entries) :
    e.target.name = name ∧ ∃ n d, (n, d) ∈ entryDependencies g ∧ i.entryOf g n d = .ok e := by
  unfold entriesByTarget at success
  simp only [] at success
  split at success
  · cases success
  · obtain ⟨all, each, success⟩ := bind_eq_ok_iff.1 success
    cases success
    rcases mem_of_foldl_update all ∅ found listed with ⟨member, isName⟩ | ⟨_, none, _⟩
    · obtain ⟨⟨n, d⟩, dependency, made⟩ := exists_of_mem_result each member
      exact ⟨isName, n, d, dependency, made⟩
    · cases none

theorem exists_entryOf {m : KeyMap String (List Entry)} (success : i.entriesByTarget g = .ok m)
    {name : String} {entries : List Entry} (found : m.get? name = some entries) {e : Entry}
    (listed : e ∈ entries) : ∃ n d, (n, d) ∈ entryDependencies g ∧ i.entryOf g n d = .ok e :=
  (entry_of_target success found listed).2

theorem entry_known {m : KeyMap String (List Entry)} (success : i.entriesByTarget g = .ok m)
    {name : String} {entries : List Entry} (found : m.get? name = some entries) {e : Entry}
    (listed : e ∈ entries) : .dependency e.dependency ∈ g.nodes := by
  obtain ⟨n, d, dependency, made⟩ := exists_entryOf success found listed
  have holds := mem_entryDependencies dependency
  unfold entryOf at made
  split at made
  · cases made
    exact List.mem_of_getElem? holds
  · cases made

end OfGraph

end Index

end CodeSplit
