import CodeSplit.Proofs.StoreTables

/-!
Filling the tables of a bundle graph by calls. Whatever the calls and their order, the tables stay
in step, and so store the graph that the same calls give without any tables. In that graph no two
nodes have the same key, and an edge is there once and joins two different nodes. A bundle that is
there keeps what it is.
-/
namespace CodeSplit

namespace BundleGraph

section Sound

variable {g h : BundleGraph} {n : NodeId} {bundle : Bundle}

/-- No key stands for two nodes, and an edge is there once and joins two different nodes. -/
structure Sound (g : BundleGraph) : Prop where
  keys : g.keys.Nodup
  edges : g.edges.Nodup
  joins : ∀ e ∈ g.edges,
    e.source ≠ e.target ∧ e.source < g.nodes.length ∧ e.target < g.nodes.length

theorem sound_empty : empty.Sound := by
  refine ⟨List.nodup_singleton _, List.nodup_nil, ?_⟩
  intro e none
  cases none

theorem Sound.addNode (sound : g.Sound) {node : Node} (new : g.nodeOfKey? node.key = none) :
    (g.addNode node).1.Sound := by
  refine ⟨nodup_keys_addNode sound.keys new, sound.edges, ?_⟩
  intro e listed
  obtain ⟨apart, source, target⟩ := sound.joins e listed
  have longer : g.nodes.length ≤ (g.addNode node).1.nodes.length := by simp [BundleGraph.addNode]
  exact ⟨apart, Nat.lt_of_lt_of_le source longer, Nat.lt_of_lt_of_le target longer⟩

/-- A graph with the same keys and edges is as sound. -/
theorem Sound.of_keys (sound : g.Sound) (keys : h.keys = g.keys) (edges : h.edges = g.edges) :
    h.Sound := by
  have length : h.nodes.length = g.nodes.length := by
    have mapped := congrArg List.length keys
    simpa [BundleGraph.keys] using mapped
  refine ⟨keys ▸ sound.keys, edges ▸ sound.edges, ?_⟩
  rw [length, edges]
  exact sound.joins

theorem Sound.addGroup (sound : g.Sound) (group : BundleGroup) : (g.addGroup group).1.Sound := by
  unfold BundleGraph.addGroup
  cases found : g.nodeOfKey? group.id with
  | some n => exact sound
  | none => exact sound.addNode found

theorem Sound.addBundle (sound : g.Sound) (success : g.addBundle bundle = .ok (h, n)) :
    h.Sound := by
  cases found : g.nodeOfKey? bundle.id with
  | none =>
    rw [BundleGraph.addBundle, found] at success
    cases success
    exact sound.addNode found
  | some m =>
    rw [addBundle_of_found found] at success
    cases isBundle : g.bundleAt? m with
    | none =>
      rw [isBundle] at success
      cases success
    | some existing =>
      simp only [isBundle] at success
      split at success
      · cases success
        exact sound.of_keys (keys_merge (bundleAt?_eq_some_iff.1 isBundle) bundle) rfl
      · cases success

theorem Sound.addEdge (sound : g.Sound) {source target : NodeId} {edgeType : EdgeType}
    (success : g.addEdge source target edgeType = .ok h) : h.Sound := by
  unfold BundleGraph.addEdge at success
  split at success
  · cases success
    exact sound
  · rename_i apart
    obtain ⟨_, sourceThere, success⟩ := bind_eq_ok_iff.1 success
    obtain ⟨_, targetThere, success⟩ := bind_eq_ok_iff.1 success
    cases success
    unfold link
    split
    · exact sound
    · rename_i new
      refine ⟨sound.keys, ?_, ?_⟩
      · exact sound.edges.append (List.nodup_singleton _) (by simpa using fun e => new (.inr e))
      · intro e listed
        rcases List.mem_append.1 listed with old | now
        · exact sound.joins e old
        · rw [List.mem_singleton.1 now]
          exact ⟨apart, lt_of_checkNode sourceThere, lt_of_checkNode targetThere⟩

/-- The ids of bundles are keys of their nodes. -/
theorem sublist_keys (g : BundleGraph) : (g.bundles.map Bundle.id).Sublist g.keys := by
  unfold bundles BundleGraph.keys
  induction g.nodes with
  | nil => exact .slnil
  | cons node rest ih =>
    cases node with
    | root => exact ih.cons _
    | group group => exact ih.cons _
    | bundle b => exact ih.cons_cons _

end Sound

/-- A call that adds to a store of bundles. -/
inductive Call where
  | group (group : BundleGroup)
  | bundle (bundle : Bundle)
  | edge (source target : NodeId) (edgeType : EdgeType)

namespace Call

/-- The node that a call gives, if it adds one, or why it is refused. -/
abbrev Answer := Except Fault (Option NodeId)

/-- A call to a graph. An edge between nodes that are not there is refused. -/
def onGraph (g : BundleGraph) : Call → Answer × BundleGraph
  | .group added => settle g (.ok ((g.addGroup added).1, some (g.addGroup added).2))
  | .bundle added => settle g ((fun done => (done.1, some done.2)) <$> g.addBundle added)
  | .edge source target edgeType => settle g ((·, none) <$> g.addEdge source target edgeType)

/-- The same call to tables. -/
def onTables (t : Tables) : Call → Answer × Tables
  | .group added => (some <$> Tables.addGroup added).onTables t
  | .bundle added => (some <$> Tables.addBundle added).onTables t
  | .edge source target edgeType =>
    ((fun _ => none) <$> Tables.addEdge source target edgeType).onTables t

/-- One call after the other, with the answers that they get. -/
def run {σ : Type} (perform : σ → Call → Answer × σ) : List Call → σ → List Answer × σ
  | [], s => ([], s)
  | call :: calls, s =>
    let made := perform s call
    let rest := run perform calls made.2
    (made.1 :: rest.1, rest.2)

variable {g : BundleGraph} {t : Tables}

theorem sound_onGraph (sound : g.Sound) (call : Call) : (call.onGraph g).2.Sound := by
  cases call with
  | group group => exact sound.addGroup group
  | bundle bundle =>
    show (settle g (_ <$> g.addBundle bundle)).2.Sound
    cases success : g.addBundle bundle with
    | error fault => exact sound
    | ok done => exact sound.addBundle success
  | edge source target edgeType =>
    show (settle g (_ <$> g.addEdge source target edgeType)).2.Sound
    cases success : g.addEdge source target edgeType with
    | error fault => exact sound
    | ok next => exact sound.addEdge success

theorem sound_run (sound : g.Sound) (calls : List Call) : (run onGraph calls g).2.Sound := by
  induction calls generalizing g with
  | nil => exact sound
  | cons call calls ih => exact ih (sound_onGraph sound call)

/-- A call keeps tables in step, is answered as it is by the graph in them, and does the same to
that graph. -/
theorem refines_onTables (inStep : t.InStep) (call : Call) :
    (call.onTables t).2.InStep ∧ (call.onTables t).1 = (call.onGraph t.graph).1 ∧
      (call.onTables t).2.graph = (call.onGraph t.graph).2 := by
  cases call with
  | group group =>
    obtain ⟨kept, result, graph⟩ := (inStep.refines_addGroup group).map some
    exact ⟨kept, result, graph⟩
  | bundle bundle =>
    obtain ⟨kept, result, graph⟩ := (inStep.refines_addBundle bundle).map some
    exact ⟨kept, result, graph⟩
  | edge source target edgeType =>
    obtain ⟨kept, result, graph⟩ :=
      (inStep.refines_addEdge source target edgeType).map fun _ => (none : Option NodeId)
    rw [Functor.map_map] at result graph
    exact ⟨kept, result, graph⟩

theorem refines_run (inStep : t.InStep) (calls : List Call) :
    (run onTables calls t).2.InStep ∧ (run onTables calls t).1 = (run onGraph calls t.graph).1 ∧
      (run onTables calls t).2.graph = (run onGraph calls t.graph).2 := by
  induction calls generalizing t with
  | nil => exact ⟨inStep, rfl, rfl⟩
  | cons call calls ih =>
    obtain ⟨kept, answer, graph⟩ := refines_onTables inStep call
    obtain ⟨laterKept, answers, laterGraph⟩ := ih kept
    rw [graph] at answers laterGraph
    exact ⟨laterKept, congrArg₂ List.cons answer answers, laterGraph⟩

end Call

/-- Whatever was added, in whichever order: the tables answer as the graph does that is built
without them, and store that graph. Bundles have different ids, a key leads to the node that has it
and to no other, a number to the vertex that carries it and back, and an edge is there once at most
and joins two different nodes. On top of that, a bundle that is refused leaves all tables as they
are, and one that is merged changes the bundle with its id only, of which neither the contents nor
an entry nor the main entry is lost. -/
theorem store_keeps_invariant (calls : List Call) :
    let done := Call.run Call.onTables calls .empty
    let t := done.2
    (done.1, t.graph) = Call.run Call.onGraph calls .empty ∧
      (t.graph.bundles.map Bundle.id).Nodup ∧
      (∀ n key, t.numberOf? key = some n ↔ ∃ node, t.nodes[n]? = some node ∧ node.key = key) ∧
      (∀ n v, t.vertexOf? n = some v ↔ t.digraph.weights[v]? = some n) ∧
      (∀ n, n < t.nodes.length ↔ ∃ v, t.vertexOf? n = some v) ∧
      (∀ source target edgeType, t.digraph.arcs.count ⟨source, target, edgeType⟩ ≤ 1) ∧
      (∀ arc ∈ t.digraph.arcs, ∃ source target, t.vertexOf? source = some arc.source ∧
        t.vertexOf? target = some arc.target ∧ source ≠ target) ∧
      (∀ source target edgeType, t.graph.edges.count ⟨source, target, edgeType⟩ ≤ 1) ∧
      (∀ e ∈ t.graph.edges, e.source ≠ e.target) ∧
      (∀ n edgeType, t.outgoing n edgeType = t.graph.outgoing n edgeType ∧
        t.incoming n edgeType = t.graph.incoming n edgeType) ∧
      ∀ bundle,
        let added := (Tables.addBundle bundle).onTables t
        (added.1, added.2.graph) = settle t.graph (t.graph.addBundle bundle) ∧
        (∀ fault, added.1 = .error fault → added.2 = t) ∧
        ∀ n existing, t.numberOf? bundle.id = some n → t.bundleAt? n = some existing →
          (existing.assetIds = bundle.assetIds ↔ ∃ m, added.1 = .ok m) ∧
          ∀ m, added.1 = .ok m →
            m = n ∧ added.2.digraph = t.digraph ∧ added.2.vertices = t.vertices ∧
            added.2.numbers = t.numbers ∧ (∀ other ≠ n, added.2.nodes[other]? = t.nodes[other]?) ∧
            ∃ merged, added.2.bundleAt? n = some merged ∧ merged.id = existing.id ∧
              merged.name = existing.name ∧ merged.fileType = existing.fileType ∧
              merged.target = existing.target ∧ merged.kind = existing.kind ∧
              merged.assetIds = existing.assetIds ∧ merged.size = existing.size ∧
              (∀ x, x ∈ merged.entryAssetIds ↔
                x ∈ existing.entryAssetIds ∨ x ∈ bundle.entryAssetIds) ∧
              ∀ x, existing.mainEntryId = some x → merged.mainEntryId = some x := by
  intro done t
  obtain ⟨inStep, answers, graph⟩ := Call.refines_run Tables.inStep_empty calls
  have sound : t.graph.Sound := graph ▸ Call.sound_run sound_empty calls
  have joins : ∀ arc ∈ t.digraph.arcs, arc.source ≠ arc.target := by
    intro arc listed
    exact (sound.joins arc.edge (inStep.mem_arcs_iff.1 listed)).1
  refine ⟨Prod.ext answers graph, (sublist_keys t.graph).nodup sound.keys, ?_,
    fun n v => inStep.vertexOf?_eq_some_iff, fun n => inStep.lt_length_iff, ?_, ?_, ?_,
    fun e listed => (sound.joins e listed).1,
    fun n edgeType => ⟨inStep.outgoing_eq n edgeType, inStep.incoming_eq n edgeType⟩, ?_⟩
  · intro n key
    rw [inStep.numbers, nodeOfKey?_eq_some_iff sound.keys, getElem?_keys]
    rfl
  · intro source target edgeType
    have distinct := sound.edges
    rw [inStep.edges_graph] at distinct
    exact List.nodup_iff_count_le_one.1 (List.Nodup.of_map _ distinct) _
  · intro arc listed
    obtain ⟨sourceThere, targetThere⟩ := inStep.arcs arc listed
    refine ⟨arc.source, arc.target, ?_, ?_, joins arc listed⟩
    · rw [inStep.vertices, if_pos sourceThere]
    · rw [inStep.vertices, if_pos targetThere]
  · intro source target edgeType
    exact List.nodup_iff_count_le_one.1 sound.edges _
  intro bundle added
  have refines := inStep.refines_addBundle bundle
  refine ⟨Prod.ext refines.result refines.graph, fun _ => Tables.eq_of_refused, ?_⟩
  intro n existing found isBundle
  refine ⟨Tables.added_iff found isBundle, ?_⟩
  intro m success
  obtain ⟨rfl, merged⟩ := Tables.merged_of_added found isBundle success
  rw [show added.2 = _ from merged]
  have inside := (List.getElem?_eq_some_iff.1 (Tables.bundleAt?_eq_some_iff.1 isBundle)).1
  refine ⟨rfl, rfl, rfl, rfl, ?_, existing.merge bundle, ?_, rfl, rfl, rfl, rfl, rfl, rfl, rfl,
    fun x => Bundle.mem_entryAssetIds_merge, ?_⟩
  · intro other apart
    exact List.getElem?_set_ne apart.symm
  · exact Tables.bundleAt?_eq_some_iff.2 (List.getElem?_set_self inside)
  · intro x main
    show (existing.mainEntryId <|> bundle.mainEntryId) = some x
    rw [main]
    rfl

/-- A bundle with one of its assets for an entry. -/
def withEntry (name entry : String) : Bundle where
  id := "a"
  name := name
  assetIds := ["x", "y"]
  entryAssetIds := [entry]
  mainEntryId := some entry

/-- A bundle, a group that loads it, and a second bundle with the id of the group. -/
def bundleAndGroup : List Call :=
  [.bundle (withEntry "a.js" "x"), .group { id := "g", entryAssetId := "x" }, .edge 2 1 .bundle,
    .edge 2 1 .bundle, .bundle { id := "g", name := "g.js" }]

/-- A bundle with the same contents becomes one with the first, and adds its entry to it; one with
other contents is refused, and so was the one with the id of the group. -/
theorem bundleAndGroup_kept :
    let t := (Call.run Call.onTables bundleAndGroup .empty).2
    (∃ after merged, (Tables.addBundle (withEntry "b.js" "y")).onTables t = (.ok 1, after) ∧
      after.bundleAt? 1 = some merged ∧ merged.name = "a.js" ∧
      (∀ x, x ∈ merged.entryAssetIds ↔ x ∈ ["x"] ∨ x ∈ ["y"]) ∧ merged.mainEntryId = some "x") ∧
      ((Tables.addBundle { id := "a", name := "b.js" }).onTables t).2 = t ∧
      (Call.run Call.onTables bundleAndGroup .empty).1 =
        [.ok (some 1), .ok (some 2), .ok none, .ok none,
          .error (.failure (.idOfAnotherNode "g"))] ∧
      t.numberOf? "g" = some 2 ∧ t.digraph = ⟨[0, 1, 2], [⟨2, 1, .bundle⟩]⟩ := by
  intro t
  obtain ⟨_, _, _, _, _, _, _, _, _, _, each⟩ := store_keeps_invariant bundleAndGroup
  refine ⟨?_, ?_, by decide, by decide, by decide⟩
  · obtain ⟨_, _, merges⟩ := each (withEntry "b.js" "y")
    obtain ⟨added, merges⟩ := merges 1 _ rfl rfl
    obtain ⟨m, success⟩ := added.1 rfl
    obtain ⟨rfl, _, _, _, _, merged, isMerged, _, name, _, _, _, _, _, entries, main⟩ :=
      merges m success
    exact ⟨_, merged, Prod.ext success rfl, isMerged, name, entries, main "x" rfl⟩
  · obtain ⟨_, refused, _⟩ := each { id := "a", name := "b.js" }
    exact refused (.failure (.differentContents "a")) rfl

end BundleGraph

end CodeSplit
