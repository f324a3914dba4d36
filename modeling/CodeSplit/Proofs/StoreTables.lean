import CodeSplit.BundleGraph.Tables
import CodeSplit.Proofs.BundleContents

/-!
The tables of a bundle graph as they are written to. Each call is first reduced to what its writes
come to. Since all checks are made before the first write, a bundle that is refused leaves no trace.
Tables are in step if a content key leads to the node that has it and a number to the vertex that
carries it; the calls keep them so, and then do to the stored graph what the operations on graphs
without tables do.
-/
namespace CodeSplit

namespace Bundle

variable (b : Bundle)

theorem foldl_pushEntry (entries : List String) :
    entries.foldl pushEntry b = { b with
      entryAssetIds := entries.foldl (fun known e => if e ∈ known then known else known ++ [e])
        b.entryAssetIds } := by
  induction entries generalizing b with
  | nil => rfl
  | cons entry rest ih => rw [List.foldl_cons, ih, List.foldl_cons, pushEntry]

/-- Merging is to add the entries one by one, to sort them, and to fill in what is missing. -/
theorem merge_eq_edits (other : Bundle) :
    b.merge other = (((other.entryAssetIds.foldl pushEntry b).sortEntries.proposeMainEntry
      other.mainEntryId).requireStableName other.needsStableName) := by
  rw [foldl_pushEntry]
  rfl

end Bundle

namespace BundleGraph

section Plain

variable {g : BundleGraph} {n : NodeId} {bundle : Bundle}

theorem nodeOfKey?_eq_findIdx? (g : BundleGraph) (key : String) :
    g.nodeOfKey? key = g.keys.findIdx? (· = key) := by
  rw [keys, List.findIdx?_map]
  rfl

/-- Adding a bundle with an id that is in use. -/
theorem addBundle_of_found (found : g.nodeOfKey? bundle.id = some n) :
    g.addBundle bundle = match g.bundleAt? n with
      | none => .error (.failure (.idOfAnotherNode bundle.id))
      | some existing =>
        if existing.assetIds = bundle.assetIds then
          .ok ({ g with nodes := g.nodes.set n (.bundle (existing.merge bundle)) }, n)
        else .error (.failure (.differentContents bundle.id)) := by
  unfold addBundle bundleAt?
  rw [found]
  simp only []
  cases g.node? n with
  | none => rfl
  | some node => cases node <;> rfl

theorem lt_of_checkNode {checked : Unit} (there : g.checkNode n = .ok checked) :
    n < g.nodes.length := by
  unfold checkNode at there
  split at there
  · assumption
  · cases there

end Plain

/-- The edge between the nodes that have the numbers of the two vertices. -/
def Arc.edge (arc : Arc) : Edge := ⟨arc.source, arc.target, arc.edgeType⟩

namespace Tables

namespace Writing

variable {α β : Type} {t : Tables}

theorem onTables_bind (steps : Writing α) (next : α → Writing β) :
    onTables (steps >>= next) t = match steps.onTables t with
      | (.ok a, middle) => (next a).onTables middle
      | (.error fault, middle) => (.error fault, middle) := by
  unfold onTables ExceptT.run
  simp only [bind, ExceptT.bind, ExceptT.mk, ExceptT.bindCont, StateT.bind]
  cases steps t with
  | mk result middle => cases result <;> rfl

@[simp] theorem onTables_get : (get : Writing Tables).onTables t = (.ok t, t) := rfl

@[simp] theorem onTables_pure (a : α) : (pure a : Writing α).onTables t = (.ok a, t) := rfl

@[simp] theorem onTables_modify (write : Tables → Tables) :
    (modify write : Writing PUnit).onTables t = (.ok (), write t) := rfl

theorem onTables_forM (write : α → Tables → Tables) (xs : List α) :
    (xs.forM fun x => modify (write x) : Writing PUnit).onTables t =
      (.ok (), xs.foldl (fun t x => write x t) t) := by
  induction xs generalizing t with
  | nil => rfl
  | cons x rest ih =>
    show onTables (modify (write x) >>= fun _ => rest.forM fun x => modify (write x)) t = _
    rw [onTables_bind, onTables_modify]
    exact ih

end Writing

open Writing

variable {t : Tables} {n : NodeId} {bundle existing : Bundle}

/-! What the writes come to. -/

/-- The tables with one more node. -/
def withNode (t : Tables) (key : String) (node : Node) : Tables where
  nodes := t.nodes ++ [node]
  digraph := (t.digraph.addVertex t.nodes.length).1
  vertices := t.vertices.insert t.nodes.length t.digraph.weights.length
  numbers := t.numbers.insert key t.nodes.length
  decisions := t.decisions

/-- The tables with another bundle at a place. -/
def withBundle (t : Tables) (n : NodeId) (b : Bundle) : Tables :=
  { t with nodes := t.nodes.set n (.bundle b) }

/-- The tables with one more arc. -/
def withArc (t : Tables) (arc : Arc) : Tables := { t with digraph := t.digraph.addArc arc }

theorem onTables_addNode (key : String) (node : Node) :
    (addNode key node).onTables t = (.ok t.nodes.length, t.withNode key node) := rfl

theorem onTables_addGroup (group : BundleGroup) :
    (addGroup group).onTables t = match t.numberOf? group.id with
      | some n => (.ok n, t)
      | none => (.ok t.nodes.length, t.withNode group.id (.group group)) := by
  unfold addGroup
  rw [onTables_bind, onTables_get]
  simp only []
  cases t.numberOf? group.id with
  | some n => rfl
  | none => exact onTables_addNode group.id (.group group)

theorem bundleAt?_eq_some_iff : t.bundleAt? n = some existing ↔
    t.nodes[n]? = some (.bundle existing) :=
  BundleGraph.bundleAt?_eq_some_iff (g := t.graph)

theorem editBundle_eq (isBundle : t.nodes[n]? = some (.bundle existing)) (edit : Bundle → Bundle) :
    t.editBundle n edit = t.withBundle n (edit existing) := by
  unfold editBundle withBundle
  rw [List.modify_eq_set_getElem?, isBundle]
  rfl

theorem editBundle_withBundle (inside : n < t.nodes.length) (b : Bundle) (edit : Bundle → Bundle) :
    (t.withBundle n b).editBundle n edit = t.withBundle n (edit b) := by
  rw [editBundle_eq (List.getElem?_set_self inside)]
  simp only [withBundle, List.set_set]

theorem foldl_editBundle_withBundle (inside : n < t.nodes.length) (edit : Bundle → String → Bundle)
    (b : Bundle) (entries : List String) :
    entries.foldl (fun t e => editBundle n (edit · e) t) (t.withBundle n b) =
      t.withBundle n (entries.foldl edit b) := by
  induction entries generalizing b with
  | nil => rfl
  | cons e rest ih => rw [List.foldl_cons, editBundle_withBundle inside, ih, List.foldl_cons]

theorem onTables_mergeInPlace (isBundle : t.bundleAt? n = some existing) :
    (mergeInPlace n bundle).onTables t = (.ok (), t.withBundle n (existing.merge bundle)) := by
  obtain ⟨inside, same⟩ := List.getElem?_eq_some_iff.1 (bundleAt?_eq_some_iff.1 isBundle)
  have start : t = t.withBundle n existing := by
    rw [withBundle, ← same, List.set_getElem_self]
  unfold mergeInPlace
  simp only [onTables_bind, onTables_forM, onTables_modify]
  conv_lhs => rw [start]
  rw [foldl_editBundle_withBundle inside Bundle.pushEntry, Bundle.merge_eq_edits]
  simp only [editBundle_withBundle inside]

theorem onTables_addBundle (t : Tables) (bundle : Bundle) :
    (addBundle bundle).onTables t = match t.numberOf? bundle.id with
      | none => (.ok t.nodes.length, t.withNode bundle.id (.bundle bundle))
      | some n =>
        match t.bundleAt? n with
        | none => (.error (.failure (.idOfAnotherNode bundle.id)), t)
        | some existing =>
          if existing.assetIds = bundle.assetIds then
            (.ok n, t.withBundle n (existing.merge bundle))
          else (.error (.failure (.differentContents bundle.id)), t) := by
  unfold addBundle
  rw [onTables_bind, onTables_get]
  simp only []
  cases t.numberOf? bundle.id with
  | none => exact onTables_addNode bundle.id (.bundle bundle)
  | some n =>
    cases isBundle : t.bundleAt? n with
    | none =>
      simp only [isBundle]
      rfl
    | some existing =>
      simp only [isBundle]
      split
      · rw [onTables_bind, onTables_mergeInPlace isBundle]
        rfl
      · rfl

/-- A bundle that is refused leaves no trace. -/
theorem eq_of_refused {fault : Fault} (refused : ((addBundle bundle).onTables t).1 = .error fault) :
    ((addBundle bundle).onTables t).2 = t := by
  rw [onTables_addBundle] at refused ⊢
  cases found : t.numberOf? bundle.id with
  | none =>
    rw [found] at refused
    cases refused
  | some n =>
    simp only [found] at refused ⊢
    cases isBundle : t.bundleAt? n with
    | none => rfl
    | some existing =>
      simp only [isBundle] at refused ⊢
      split
      · rename_i same
        rw [if_pos same] at refused
        cases refused
      · rfl

/-- A bundle whose id is that of another bundle is merged into it, if it is added at all. -/
theorem onTables_addBundle_of_bundleAt? (found : t.numberOf? bundle.id = some n)
    (isBundle : t.bundleAt? n = some existing) :
    (addBundle bundle).onTables t = if existing.assetIds = bundle.assetIds then
        (.ok n, t.withBundle n (existing.merge bundle))
      else (.error (.failure (.differentContents bundle.id)), t) := by
  rw [onTables_addBundle]
  simp only [found, isBundle]

section Merging

variable (found : t.numberOf? bundle.id = some n) (isBundle : t.bundleAt? n = some existing)

include found isBundle

theorem added_iff : existing.assetIds = bundle.assetIds ↔
    ∃ m, ((addBundle bundle).onTables t).1 = .ok m := by
  rw [onTables_addBundle_of_bundleAt? found isBundle]
  split
  · rename_i same
    exact iff_of_true same ⟨_, rfl⟩
  · rename_i differ
    refine iff_of_false differ ?_
    rintro ⟨m, success⟩
    cases success

theorem merged_of_added {m : NodeId} (success : ((addBundle bundle).onTables t).1 = .ok m) :
    m = n ∧ ((addBundle bundle).onTables t).2 = t.withBundle n (existing.merge bundle) := by
  have same := (added_iff found isBundle).2 ⟨m, success⟩
  rw [onTables_addBundle_of_bundleAt? found isBundle, if_pos same] at success ⊢
  cases success
  exact ⟨rfl, rfl⟩

end Merging

/-! Tables that are in step. -/

/-- A content key leads to the node that has it, the vertex of a node has its number, and arcs join
vertices that are there. -/
structure InStep (t : Tables) : Prop where
  numbers : ∀ key, t.numberOf? key = t.graph.nodeOfKey? key
  weights : t.digraph.weights = List.range t.nodes.length
  vertices : ∀ n, t.vertexOf? n = if n < t.nodes.length then some n else none
  arcs : ∀ arc ∈ t.digraph.arcs, arc.source < t.nodes.length ∧ arc.target < t.nodes.length

theorem inStep_empty : empty.InStep := by
  refine ⟨?_, rfl, ?_, ?_⟩
  · intro key
    show (KeyMap.insert ∅ rootKey rootNode : KeyMap String NodeId).get? key =
      [Node.root].findIdx? fun node => node.key = key
    rw [KeyMap.get?_insert]
    by_cases isRoot : rootKey = key
    · simp [Node.key, isRoot, rootNode]
    · simp [Node.key, isRoot]
  · intro n
    show (KeyMap.insert ∅ rootNode 0 : KeyMap NodeId Vertex).get? n = if n < 1 then some n else none
    rw [KeyMap.get?_insert]
    by_cases isRoot : rootNode = n
    · subst isRoot
      rfl
    · have : n ≠ 0 := Ne.symm isRoot
      simp [isRoot]
      omega
  · intro arc none
    cases none

namespace InStep

variable (inStep : t.InStep)

include inStep

theorem getElem?_weights (inside : n < t.nodes.length) : t.digraph.weights[n]? = some n := by
  rw [inStep.weights, List.getElem?_range inside]

/-- The two ways between numbers and vertices are inverse to one another. -/
theorem vertexOf?_eq_some_iff {v : Vertex} :
    t.vertexOf? n = some v ↔ t.digraph.weights[v]? = some n := by
  rw [inStep.vertices, inStep.weights, List.getElem?_eq_some_iff]
  simp only [List.getElem_range, List.length_range, exists_prop]
  by_cases there : n < t.nodes.length
  · rw [if_pos there, Option.some.injEq]
    exact ⟨fun same => ⟨same ▸ there, same.symm⟩, fun same => same.2.symm⟩
  · rw [if_neg there]
    refine iff_of_false (by simp) ?_
    rintro ⟨inside, rfl⟩
    exact there inside

theorem lt_length_iff : n < t.nodes.length ↔ ∃ v, t.vertexOf? n = some v := by
  rw [inStep.vertices]
  by_cases there : n < t.nodes.length
  · simp [there]
  · simp [there]

theorem edge?_eq {arc : Arc} (listed : arc ∈ t.digraph.arcs) :
    t.digraph.edge? arc = some arc.edge := by
  obtain ⟨source, target⟩ := inStep.arcs arc listed
  unfold Digraph.edge?
  rw [inStep.getElem?_weights source, inStep.getElem?_weights target]
  rfl

theorem edges_graph : t.graph.edges = t.digraph.arcs.map Arc.edge := by
  show t.digraph.arcs.filterMap t.digraph.edge? = _
  rw [List.filterMap_congr fun arc listed => inStep.edge?_eq listed]
  exact congrFun List.filterMap_eq_map _

theorem withNode (node : Node) (new : t.numberOf? node.key = none) :
    (t.withNode node.key node).InStep := by
  have length : (t.withNode node.key node).nodes.length = t.nodes.length + 1 :=
    List.length_append
  refine ⟨?_, ?_, ?_, ?_⟩
  · intro key
    show (t.numbers.insert node.key t.nodes.length).get? key =
      (t.nodes ++ [node]).findIdx? fun other => other.key = key
    have old : t.nodes.findIdx? (fun other => other.key = key) = t.numberOf? key :=
      (inStep.numbers key).symm
    rw [KeyMap.get?_insert, List.findIdx?_append, old]
    by_cases isNew : node.key = key
    · subst isNew
      simp [new]
    · simp [isNew]
      rfl
  · rw [length, List.range_succ, ← inStep.weights]
    rfl
  · -- the vertex that is added has the number of the node, since there is one for each node so far
    intro m
    show (t.vertices.insert t.nodes.length t.digraph.weights.length).get? m = _
    have old : t.vertices.get? m = _ := inStep.vertices m
    rw [KeyMap.get?_insert, inStep.weights, List.length_range, old, length]
    grind
  · intro arc listed
    obtain ⟨source, target⟩ := inStep.arcs arc listed
    rw [length]
    exact ⟨Nat.lt_succ_of_lt source, Nat.lt_succ_of_lt target⟩

theorem graph_withNode (node : Node) (new : t.numberOf? node.key = none) :
    (t.withNode node.key node).graph = (t.graph.addNode node).1 := by
  have edges : (t.withNode node.key node).graph.edges = t.graph.edges :=
    (inStep.withNode node new).edges_graph.trans inStep.edges_graph.symm
  exact congrArg (fun edges => (⟨t.nodes ++ [node], edges, t.decisions⟩ : BundleGraph)) edges

theorem withBundle (isBundle : t.bundleAt? n = some existing) (bundle : Bundle) :
    (t.withBundle n (existing.merge bundle)).InStep := by
  have length : (t.withBundle n (existing.merge bundle)).nodes.length = t.nodes.length :=
    List.length_set
  have keys : (t.withBundle n (existing.merge bundle)).graph.keys = t.graph.keys :=
    keys_merge (g := t.graph) (bundleAt?_eq_some_iff.1 isBundle) bundle
  refine ⟨?_, ?_, ?_, ?_⟩
  · intro key
    rw [nodeOfKey?_eq_findIdx?, keys, ← nodeOfKey?_eq_findIdx?]
    exact inStep.numbers key
  · rw [length]
    exact inStep.weights
  · rw [length]
    exact inStep.vertices
  · rw [length]
    exact inStep.arcs

theorem withArc {arc : Arc} (source : arc.source < t.nodes.length)
    (target : arc.target < t.nodes.length) : (t.withArc arc).InStep := by
  refine ⟨inStep.numbers, inStep.weights, inStep.vertices, ?_⟩
  intro other listed
  rcases List.mem_append.1 listed with old | new
  · exact inStep.arcs other old
  · rw [List.mem_singleton.1 new]
    exact ⟨source, target⟩

theorem graph_withArc {arc : Arc} (source : arc.source < t.nodes.length)
    (target : arc.target < t.nodes.length) :
    (t.withArc arc).graph = { t.graph with edges := t.graph.edges ++ [arc.edge] } := by
  have edges : (t.withArc arc).graph.edges = t.graph.edges ++ [arc.edge] := by
    rw [(inStep.withArc source target).edges_graph, inStep.edges_graph]
    exact List.map_append
  exact congrArg (fun edges => (⟨t.nodes, edges, t.decisions⟩ : BundleGraph)) edges

theorem mem_arcs_iff {arc : Arc} : arc ∈ t.digraph.arcs ↔ arc.edge ∈ t.graph.edges := by
  rw [inStep.edges_graph, List.mem_map_of_injective]
  rintro ⟨⟩ ⟨⟩ same
  cases same
  rfl

theorem onTables_vertexOf (n : NodeId) : (vertexOf n).onTables t =
    match t.graph.checkNode n with
      | .ok _ => (.ok n, t)
      | .error fault => (.error fault, t) := by
  have check : t.graph.checkNode n =
    if n < t.nodes.length then .ok () else .error (.misuse (.noSuchNode n)) := rfl
  unfold vertexOf
  rw [onTables_bind, onTables_get]
  simp only [inStep.vertices n, check]
  by_cases inside : n < t.nodes.length
  · rw [if_pos inside, if_pos inside]
    rfl
  · rw [if_neg inside, if_neg inside]
    rfl

theorem onTables_hasEdge (source target : NodeId) (edgeType : EdgeType) :
    (hasEdge source target edgeType).onTables t = (t.graph.hasEdge source target edgeType, t) := by
  unfold hasEdge BundleGraph.hasEdge
  simp only [onTables_bind, inStep.onTables_vertexOf]
  cases t.graph.checkNode source with
  | error fault => rfl
  | ok =>
    simp only [inStep.onTables_vertexOf]
    cases t.graph.checkNode target with
    | error fault => rfl
    | ok =>
      simp only [onTables_get, onTables_pure, inStep.mem_arcs_iff]
      rfl

end InStep

end Tables

/-- What comes of an operation and the graph that it leaves, which is the same one if it fails. -/
def settle {α : Type} (g : BundleGraph) : Except Fault (BundleGraph × α) →
    Except Fault α × BundleGraph
  | .ok done => (.ok done.2, done.1)
  | .error fault => (.error fault, g)

namespace Tables

open Writing

/-- Steps on the tables that do to the graph in them what an operation does to it. -/
structure Writing.Refines {α : Type} (steps : Writing α) (t : Tables)
    (plain : Except Fault α × BundleGraph) : Prop where
  inStep : (steps.onTables t).2.InStep
  result : (steps.onTables t).1 = plain.1
  graph : (steps.onTables t).2.graph = plain.2

theorem Writing.refines_of_eq {α : Type} {steps : Writing α} {t after : Tables}
    {plain : Except Fault α × BundleGraph} (outcome : steps.onTables t = (plain.1, after))
    (inStep : after.InStep) (graph : after.graph = plain.2) : steps.Refines t plain := by
  refine ⟨?_, ?_, ?_⟩
  · rw [outcome]
    exact inStep
  · rw [outcome]
  · rw [outcome]
    exact graph

theorem Writing.Refines.map {α β : Type} {t : Tables} {steps : Writing α}
    {plain : Except Fault (BundleGraph × α)} (refines : steps.Refines t (settle t.graph plain))
    (f : α → β) :
    (f <$> steps).Refines t (settle t.graph ((fun done => (done.1, f done.2)) <$> plain)) := by
  have mapped : (f <$> steps).onTables t =
      (f <$> (steps.onTables t).1, (steps.onTables t).2) := by
    rw [map_eq_pure_bind, onTables_bind]
    cases steps.onTables t with
    | mk result after => cases result <;> rfl
  cases plain with
  | error fault =>
    refine refines_of_eq ?_ refines.inStep refines.graph
    rw [mapped, refines.result]
    rfl
  | ok done =>
    refine refines_of_eq ?_ refines.inStep refines.graph
    rw [mapped, refines.result]
    rfl

namespace InStep

variable {t : Tables} (inStep : t.InStep)

include inStep

theorem refines_addGroup (group : BundleGroup) :
    (addGroup group).Refines t (settle t.graph (.ok (t.graph.addGroup group))) := by
  have same := inStep.numbers group.id
  unfold BundleGraph.addGroup
  rw [← same]
  cases found : t.numberOf? group.id with
  | some n => exact refines_of_eq (by rw [onTables_addGroup, found]; rfl) inStep rfl
  | none =>
    exact refines_of_eq (by rw [onTables_addGroup, found]; rfl)
      (inStep.withNode (.group group) found)
      (inStep.graph_withNode (.group group) found)

theorem refines_addBundle (bundle : Bundle) :
    (addBundle bundle).Refines t (settle t.graph (t.graph.addBundle bundle)) := by
  have same := inStep.numbers bundle.id
  cases found : t.numberOf? bundle.id with
  | none =>
    rw [BundleGraph.addBundle, ← same, found]
    exact refines_of_eq (by rw [onTables_addBundle, found]; rfl)
      (inStep.withNode (.bundle bundle) found)
      (inStep.graph_withNode (.bundle bundle) found)
  | some n =>
    have outcome := onTables_addBundle t bundle
    rw [addBundle_of_found (same.symm.trans found)]
    rw [found] at outcome
    show (addBundle bundle).Refines t (settle t.graph (match t.bundleAt? n with
      | none => _
      | some existing => _))
    cases isBundle : t.bundleAt? n with
    | none =>
      simp only [isBundle] at outcome
      exact refines_of_eq outcome inStep rfl
    | some existing =>
      simp only [isBundle] at outcome
      by_cases equal : existing.assetIds = bundle.assetIds
      · simp only [equal, if_true] at outcome ⊢
        exact refines_of_eq outcome (inStep.withBundle isBundle bundle) rfl
      · simp only [equal, if_false] at outcome ⊢
        exact refines_of_eq outcome inStep rfl

theorem onTables_addEdge {source target : NodeId} (apart : source ≠ target)
    (edgeType : EdgeType) :
    (addEdge source target edgeType).onTables t =
      match t.graph.hasEdge source target edgeType with
        | .error fault => (.error fault, t)
        | .ok true => (.ok (), t)
        | .ok false => (.ok (), t.withArc ⟨source, target, edgeType⟩) := by
  simp only [addEdge, apart, if_false, onTables_bind, inStep.onTables_hasEdge]
  cases present : t.graph.hasEdge source target edgeType with
  | error fault => rfl
  | ok known =>
    obtain ⟨_, sourceThere, rest⟩ := bind_eq_ok_iff.1 present
    obtain ⟨_, targetThere, _⟩ := bind_eq_ok_iff.1 rest
    cases known with
    | true => rfl
    | false =>
      simp only [Bool.false_eq_true, if_false, onTables_bind, inStep.onTables_vertexOf, sourceThere,
        targetThere]
      rfl

theorem refines_addEdge (source target : NodeId) (edgeType : EdgeType) :
    (addEdge source target edgeType).Refines t
      (settle t.graph ((·, ()) <$> t.graph.addEdge source target edgeType)) := by
  unfold BundleGraph.addEdge
  by_cases loop : source = target
  · simp only [loop, if_true]
    exact refines_of_eq (by simp only [addEdge, if_true]; rfl) inStep rfl
  simp only [loop, if_false]
  have writes := inStep.onTables_addEdge loop edgeType
  unfold BundleGraph.hasEdge at writes
  cases sourceCheck : t.graph.checkNode source with
  | error fault =>
    rw [sourceCheck] at writes
    exact refines_of_eq writes inStep rfl
  | ok =>
    cases targetCheck : t.graph.checkNode target with
    | error fault =>
      rw [sourceCheck, targetCheck] at writes
      exact refines_of_eq writes inStep rfl
    | ok =>
      rw [sourceCheck, targetCheck] at writes
      show (addEdge source target edgeType).Refines t
        (.ok (), t.graph.link source target edgeType)
      unfold link
      by_cases known : ⟨source, target, edgeType⟩ ∈ t.graph.edges
      · rw [if_pos (.inr known)]
        simp only [known, decide_true] at writes
        exact refines_of_eq writes inStep rfl
      · rw [if_neg (not_or.2 ⟨loop, known⟩)]
        simp only [known, decide_false] at writes
        have sourceInside := lt_of_checkNode sourceCheck
        have targetInside := lt_of_checkNode targetCheck
        exact refines_of_eq writes (inStep.withArc sourceInside targetInside)
          (inStep.graph_withArc sourceInside targetInside)

/-- The far ends of arcs, which carry their own numbers. -/
theorem neighbours_eq {near far : Arc → Vertex}
    (inside : ∀ arc ∈ t.digraph.arcs, near arc < t.nodes.length ∧ far arc < t.nodes.length)
    (n : NodeId) (edgeType : EdgeType) :
    t.neighbours near far n edgeType =
      (t.digraph.arcs.filter fun arc => near arc = n ∧ arc.edgeType = edgeType).map far := by
  unfold neighbours
  rw [inStep.vertices n]
  by_cases there : n < t.nodes.length
  · rw [if_pos there, ← List.filterMap_eq_map]
    apply List.filterMap_congr
    intro arc listed
    exact inStep.getElem?_weights (inside arc (List.mem_filter.1 listed).1).2
  · rw [if_neg there]
    symm
    rw [List.map_eq_nil_iff, List.filter_eq_nil_iff]
    intro arc listed isNear
    rw [decide_eq_true_eq] at isNear
    exact there (isNear.1 ▸ (inside arc listed).1)

theorem outgoing_eq (n : NodeId) (edgeType : EdgeType) :
    t.outgoing n edgeType = t.graph.outgoing n edgeType := by
  unfold BundleGraph.outgoing
  rw [inStep.edges_graph, List.filter_map, List.map_map]
  exact inStep.neighbours_eq inStep.arcs n edgeType

theorem incoming_eq (n : NodeId) (edgeType : EdgeType) :
    t.incoming n edgeType = t.graph.incoming n edgeType := by
  unfold BundleGraph.incoming
  rw [inStep.edges_graph, List.filter_map, List.map_map]
  exact inStep.neighbours_eq (fun arc listed => (inStep.arcs arc listed).symm) n edgeType

end InStep

end Tables

end BundleGraph

end CodeSplit
