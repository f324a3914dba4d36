import CodeSplit.Proofs.BundleContents
import CodeSplit.Proofs.PlannedBundles

/-!
What a written group lists. The node of a group leads to the nodes of the bundles that the group
loads, and at the node of a bundle is what all bundles with its id become. So a group lists exactly
what its members need, nothing twice, and its root enters by one bundle; writing a plan that is
returned fails only where two of its bundles with different contents have one id.
-/
namespace CodeSplit

open BundleGraph

theorem Bundle.SameContents.holds_iff {b c : Bundle} (same : b.SameContents c) {i : Index}
    {fileType : FileType} {assets : KeySet AssetKey} :
    c.Holds i fileType assets ↔ b.Holds i fileType assets := by
  unfold Bundle.Holds
  rw [same.fileType, same.assetIds]

namespace Plan

variable {p : Plan} {i : Index} {config : Config} {group other : AssetKey} {r s : Root}

/-- The first bundle to write that has an id. -/
def firstBundle? (p : Plan) (i : Index) (config : Config) (id : String) : Option Bundle :=
  (made (p.plannedBundles i config)).find? fun b => b.id = id

theorem firstBundle?_eq_some {id : String} {first : Bundle}
    (isFirst : p.firstBundle? i config id = some first) :
    first.id = id ∧ ∃ origin, (origin, .ok first) ∈ p.plannedBundles i config := by
  refine ⟨?_, mem_made.1 (List.mem_of_find?_eq_some isFirst)⟩
  simpa using List.find?_some isFirst

/-- What the bundles to write that have an id become. -/
def gathered (p : Plan) (i : Index) (config : Config) (id : String) : Option Bundle :=
  Bundle.gather ((made (p.plannedBundles i config)).filter fun b => b.id = id)

theorem exists_gathered {origin : BundleOrigin} {c : Bundle}
    (listed : (origin, .ok c) ∈ p.plannedBundles i config) :
    ∃ b, p.gathered i config c.id = some b :=
  Bundle.exists_gather (b := c)
    (List.mem_filter.2 ⟨mem_made.2 ⟨origin, listed⟩, decide_eq_true rfl⟩)

theorem LoadsBundle.exists_gathered {c : Bundle} (loads : p.LoadsBundle i config group c) :
    ∃ b, p.gathered i config c.id = some b := by
  obtain ⟨origin, planned, _⟩ := loads
  exact Plan.exists_gathered planned

/-- The contents are those of the first bundle with the id, the entry points those of all. -/
theorem gathered_eq_some {id : String} {b : Bundle} (found : p.gathered i config id = some b) :
    (∃ first, p.firstBundle? i config id = some first ∧ first.SameContents b) ∧
    ∀ x, x ∈ b.entryAssetIds ↔ ∃ origin c, (origin, .ok c) ∈ p.plannedBundles i config ∧
      c.id = id ∧ x ∈ c.entryAssetIds := by
  obtain ⟨first, isFirst, same, entries⟩ := Bundle.gather_eq_some found
  refine ⟨⟨first, List.head?_filter.symm.trans isFirst, same⟩, ?_⟩
  intro x
  rw [entries]
  constructor
  · rintro ⟨c, listed, enters⟩
    obtain ⟨member, sameId⟩ := List.mem_filter.1 listed
    obtain ⟨origin, planned⟩ := mem_made.1 member
    exact ⟨origin, c, planned, of_decide_eq_true sameId, enters⟩
  · rintro ⟨origin, c, planned, sameId, enters⟩
    exact ⟨c, List.mem_filter.2 ⟨mem_made.2 ⟨origin, planned⟩, decide_eq_true sameId⟩, enters⟩

/-- Roots of one plan have different group ids. -/
theorem Writable.eq_of_groupId (writable : p.Writable i) (differ : i.IdsDiffer)
    (known : p.root? group = some r) (otherKnown : p.root? other = some s)
    (same : p.groupId r = p.groupId s) : group = other := by
  have sameText := congrArg String.toList same
  simp only [groupId, String.toList_append] at sameText
  have sameId : r.assetId = s.assetId := String.toList_inj.1 (List.append_cancel_left sameText)
  exact differ group other r.assetId (writable.named group r known)
    (sameId ▸ writable.named other s otherKnown)

end Plan

namespace WrittenPlan

variable {w : WrittenPlan} {i : Index} {config : Config} {g next : BundleGraph}
  {group : AssetKey} {r : Root} {n : NodeId} {b : Bundle}

/-- The bundles of the plan are in the graph. -/
structure Stored (w : WrittenPlan) (i : Index) (config : Config) (g : BundleGraph) : Prop where
  keyed : g.WellKeyed
  distinct : g.edges.Nodup
  bundles : ∀ d ∈ w.bundles, g.keys[d.node]? = some d.id ∧
    g.bundleAt? d.node = w.plan.gathered i config d.id ∧
    ∃ c, (d.origin, .ok c) ∈ w.plan.plannedBundles i config ∧ c.id = d.id
  all : ∀ origin c, (origin, .ok c) ∈ w.plan.plannedBundles i config →
    ∃ d ∈ w.bundles, d.origin = origin ∧ d.id = c.id

/-- The node of a group leads to what the group loads, and nowhere else. -/
structure Lists (w : WrittenPlan) (g : BundleGraph) (group : AssetKey) (r : Root) (n : NodeId) :
    Prop where
  isNode : g.keys[n]? = some (w.plan.groupId r)
  edges : ∀ m, ⟨n, m, .bundle⟩ ∈ g.edges ↔ m ∈ w.groupNodes group ∧ n ≠ m

theorem stored_of_addBundles {p : Plan} {bundles : List WrittenBundle}
    (success : addBundles (p.plannedBundles i config) empty = (g, .ok bundles)) :
    Stored ⟨p, bundles⟩ i config g := by
  have digests := fun origin b (listed : (origin, .ok b) ∈ p.plannedBundles i config) =>
    Plan.isDigest_of_planned listed
  obtain ⟨grows, sameEdges, each, _⟩ := addBundles_spec wellKeyed_empty digests success
  have start (id : String) : empty.bundle? id =
      Bundle.gather (([] : List Bundle).filter fun b => b.id = id) := bundle?_empty id
  have gathers := addBundles_gathers wellKeyed_empty digests start success
  refine ⟨grows.keyed, sameEdges ▸ List.nodup_nil, ?_, fun _ _ => exists_written success⟩
  intro d listed
  obtain ⟨c, planned, same, isKey⟩ := each d listed
  exact ⟨isKey, (grows.keyed.bundle?_eq isKey).symm.trans (gathers d.id), c, planned, same.symm⟩

/-- Nodes that are added behind, and edges, change nothing. -/
theorem Stored.later (stored : w.Stored i config g) (grows : Grows g next) (more : Extends g next) :
    w.Stored i config next := by
  refine ⟨grows.keyed, more.distinct stored.distinct, ?_, stored.all⟩
  intro d listed
  obtain ⟨isKey, contents, c, planned, same⟩ := stored.bundles d listed
  obtain ⟨b, found⟩ := Plan.exists_gathered planned
  rw [same] at found
  rw [found] at contents ⊢
  exact ⟨grows.keeps isKey, more.bundleAt? contents, c, planned, same⟩

/-- A group lists what the bundles that it loads have become. -/
theorem Stored.mem_listed (stored : w.Stored i config g) (own : group ∈ w.plan.members group)
    (lists : w.Lists g group r n) :
    b ∈ g.bundlesInGroup (w.plan.groupId r) true ↔
      ∃ c, w.plan.LoadsBundle i config group c ∧ w.plan.gathered i config c.id = some b := by
  rw [stored.keyed.mem_bundlesInGroup lists.isNode]
  constructor
  · rintro ⟨m, edge, found⟩
    obtain ⟨d, listed, rfl, loads⟩ := (mem_groupNodes own).1 ((lists.edges m).1 edge).1
    obtain ⟨_, contents, c, planned, same⟩ := stored.bundles d listed
    exact ⟨c, ⟨d.origin, planned, loads⟩, by rw [same, ← contents, found]⟩
  · rintro ⟨c, ⟨origin, planned, loads⟩, found⟩
    obtain ⟨d, listed, rfl, same⟩ := stored.all origin c planned
    obtain ⟨isKey, contents, _⟩ := stored.bundles d listed
    refine ⟨d.node, (lists.edges d.node).2 ⟨?_, ?_⟩, by rw [contents, same, found]⟩
    · exact (mem_groupNodes own).2 ⟨d, listed, rfl, loads⟩
    · -- the id of a bundle is not that of a group
      rintro rfl
      rw [lists.isNode, same] at isKey
      exact not_isGroupId_of_isDigest (Plan.isDigest_of_planned planned)
        (Option.some_inj.1 isKey ▸ w.plan.isGroupId_groupId r)

theorem Stored.nodup_listed (stored : w.Stored i config g) (id : String) :
    ((g.bundlesInGroup id true).map Bundle.id).Nodup := by
  have all : g.bundlesInGroup id true = g.bundlesAlong id .bundle := by simp [bundlesInGroup]
  rw [all]
  exact stored.keyed.nodup_bundlesAlong stored.distinct id .bundle

/-- The root of a group enters by one of the bundles that the group lists. -/
theorem Stored.exists_entry (stored : w.Stored i config g) (writable : w.plan.Writable i)
    (differ : i.IdsDiffer) (own : group ∈ w.plan.members group) (lists : w.Lists g group r n)
    (known : w.plan.root? group = some r) :
    ∃ entry, (g.bundlesInGroup (w.plan.groupId r) true).filter
      (fun b => decide (r.assetId ∈ b.entryAssetIds)) = [entry] := by
  obtain ⟨main, planned, enters, only⟩ := writable.exists_main differ config known
  obtain ⟨entry, found⟩ := Plan.exists_gathered planned
  refine ⟨entry, List.perm_singleton.1 ?_⟩
  have nodup := stored.nodup_listed (w.plan.groupId r)
  rw [List.perm_ext_iff_of_nodup (nodup.of_map.filter _) (List.nodup_singleton _)]
  intro b
  rw [List.mem_filter, decide_eq_true_eq, stored.mem_listed own lists, List.mem_singleton]
  constructor
  · rintro ⟨⟨c, _, gathered⟩, enters⟩
    obtain ⟨_, other, otherPlanned, same, otherEnters⟩ :=
      ((Plan.gathered_eq_some gathered).2 r.assetId).1 enters
    rw [only _ other otherPlanned otherEnters] at same
    rw [← same, found] at gathered
    exact (Option.some_inj.1 gathered).symm
  · rintro rfl
    exact ⟨⟨main, ⟨_, planned, own⟩, found⟩,
      ((Plan.gathered_eq_some found).2 r.assetId).2 ⟨_, main, planned, rfl, enters⟩⟩

/-! Writing the groups. -/

theorem ne_rootNode (keyed : g.WellKeyed) (isNode : g.keys[n]? = some (w.plan.groupId r)) :
    n ≠ rootNode := by
  rintro rfl
  obtain ⟨node, isRoot, named⟩ := getElem?_keys.1 isNode
  cases keyed.root.symm.trans isRoot
  have isGroup := w.plan.isGroupId_groupId r
  rw [← named] at isGroup
  exact not_isGroupId_rootKey isGroup

theorem mem_groupEdges {m : NodeId} (apart : n ≠ rootNode) :
    ⟨n, m, .bundle⟩ ∈ w.groupEdges group r n ↔ m ∈ w.groupNodes group := by
  unfold groupEdges
  rw [List.mem_append]
  constructor
  · rintro (start | loads)
    · split at start
      · cases List.mem_singleton.1 start
        exact absurd rfl apart
      · cases start
    · obtain ⟨m, member, same⟩ := List.mem_map.1 loads
      cases same
      exact member
  · intro member
    exact .inr (List.mem_map.2 ⟨m, member, rfl⟩)

/-- A group can be written if no edge leads from a node with its id before. -/
theorem exists_writeGroup (stored : w.Stored i config g) (writable : w.plan.Writable i)
    (differ : i.IdsDiffer) (isRoot : group ∈ w.plan.groupRoots)
    (known : w.plan.root? group = some r)
    (fresh : ∀ e ∈ g.edges, ∃ key, g.keys[e.source]? = some key ∧ key ≠ w.plan.groupId r) :
    ∃ next node, g.writeGroup w group r = (next, .ok node) ∧ w.Stored i config next := by
  have isGroup : IsGroupId (w.groupOf r).id := w.plan.isGroupId_groupId r
  obtain ⟨grows, sameEdges, isNode⟩ := addGroup_spec stored.keyed isGroup
  generalize edges : w.groupEdges group r (g.addGroup (w.groupOf r)).2 = groupEdges
  have added : w.Stored i config ((g.addGroup (w.groupOf r)).1.linkAll groupEdges) :=
    stored.later (grows.linkAll _) ((extends_addGroup g _).trans (extends_linkAll _ _))
  have lists : w.Lists ((g.addGroup (w.groupOf r)).1.linkAll groupEdges) group r
      (g.addGroup (w.groupOf r)).2 := by
    refine ⟨(keys_linkAll _).symm ▸ isNode, ?_⟩
    intro m
    rw [mem_linkAll, sameEdges, ← edges, mem_groupEdges (ne_rootNode grows.keyed isNode)]
    refine or_iff_right ?_
    intro old
    obtain ⟨key, isKey, differs⟩ := fresh _ old
    exact differs (Option.some_inj.1 ((grows.keeps isKey).symm.trans isNode))
  obtain ⟨entry, single⟩ := added.exists_entry writable differ
    (writable.assigned.mem_members_self isRoot) lists known
  refine ⟨_, (g.addGroup (w.groupOf r)).2, ?_, added⟩
  unfold writeGroup
  simp only []
  rw [← edges]
  rw [← edges] at single
  refine Prod.ext rfl (if_pos ?_)
  exact congrArg List.length single

/-- Groups of different roots can be written one after the other. -/
theorem exists_writeGroups {roots : List AssetKey} (stored : w.Stored i config g)
    (writable : w.plan.Writable i) (differ : i.IdsDiffer)
    (groups : ∀ key ∈ roots, key ∈ w.plan.groupRoots) (distinct : roots.Nodup)
    (fresh : ∀ e ∈ g.edges, ∃ key, g.keys[e.source]? = some key ∧
      ∀ root ∈ roots, ∀ r, w.plan.root? root = some r → key ≠ w.plan.groupId r) :
    ∃ next nodes, writeGroups w roots g = (next, .ok nodes) := by
  induction roots generalizing g with
  | nil => exact ⟨g, ∅, rfl⟩
  | cons root roots ih =>
    obtain ⟨new, distinct⟩ := List.nodup_cons.1 distinct
    have isRoot := groups root List.mem_cons_self
    obtain ⟨r, known, _⟩ := Plan.mem_groupRoots.1 isRoot
    obtain ⟨middle, node, wrote, later⟩ := exists_writeGroup stored writable differ isRoot known (by
      intro e listed
      obtain ⟨key, isKey, differs⟩ := fresh e listed
      exact ⟨key, isKey, differs root List.mem_cons_self r known⟩)
    obtain ⟨grows, isNode, edges⟩ := writeGroup_spec stored.keyed wrote
    obtain ⟨next, nodes, rest⟩ := ih later
      (fun key listed => groups key (List.mem_cons_of_mem _ listed)) distinct (by
        intro e listed
        rcases (edges e).1 listed with old | ⟨added, _⟩
        · obtain ⟨key, isKey, differs⟩ := fresh e old
          exact ⟨key, grows.keeps isKey,
            fun other listed => differs other (List.mem_cons_of_mem _ listed)⟩
        · unfold groupEdges at added
          rcases List.mem_append.1 added with start | loads
          · -- the root of the graph is no group
            split at start
            · rw [List.mem_singleton.1 start]
              refine ⟨rootKey, getElem?_keys.2 ⟨.root, grows.keyed.root, rfl⟩, ?_⟩
              intro other _ s _ same
              exact not_isGroupId_rootKey (same ▸ w.plan.isGroupId_groupId s)
            · cases start
          · obtain ⟨m, _, rfl⟩ := List.mem_map.1 loads
            refine ⟨w.plan.groupId r, isNode, ?_⟩
            intro other listed s otherKnown same
            exact new (writable.eq_of_groupId differ known otherKnown same ▸ listed))
    refine ⟨next, nodes.insert root node, ?_⟩
    rw [writeGroups]
    simp only [known, wrote, rest]
    rfl

/-- The edges between bundles can be found where all dependencies are declared by assets. -/
theorem exists_dependencyEdges (declared : ∀ e ∈ w.plan.edges, i.Known e.declaredBy)
    (groups : KeyMap AssetKey NodeId) : ∃ links, w.dependencyEdges i groups = .ok links := by
  refine exists_bind_ok (exists_mapM_ok ?_) fun found _ => ⟨_, rfl⟩
  intro e listed
  exact exists_bind_ok (declared e listed) fun asset _ => ⟨_, rfl⟩

end WrittenPlan

/-! Writing the plan. -/

namespace Plan

variable {p : Plan} {i : Index} {config : Config} {key : AssetKey} {root : Root}

/-- A plan can be written into an empty graph if bundles with one id hold the same assets. -/
theorem Writable.writes (writable : p.Writable i) (differ : i.IdsDiffer)
    (agree : ∀ b ∈ made (p.plannedBundles i config), ∀ c ∈ made (p.plannedBundles i config),
      b.id = c.id → b.assetIds = c.assetIds) :
    (BundleGraph.empty.writePlan i config p).2.result = .ok () := by
  obtain ⟨filled, bundles, wrote⟩ := exists_addBundles wellKeyed_empty
    (fun entry listed => writable.exists_planned listed)
    (fun origin b listed => isDigest_of_planned listed) agree (by
      intro b _ c found
      rw [bundle?_empty] at found
      cases found)
  have stored := WrittenPlan.stored_of_addBundles wrote
  obtain ⟨_, noEdges, _⟩ := addBundles_spec wellKeyed_empty
    (fun origin b listed => isDigest_of_planned listed) wrote
  obtain ⟨grouped, groups, made⟩ := WrittenPlan.exists_writeGroups (w := ⟨p, bundles⟩) stored
    writable differ (fun key listed => listed) nodup_groupRoots (by
      intro e listed
      rw [noEdges] at listed
      cases listed)
  obtain ⟨links, linked⟩ :=
    WrittenPlan.exists_dependencyEdges (w := ⟨p, bundles⟩) writable.declared groups
  unfold writePlan
  simp only [wrote, made, linked]
  rfl

end Plan

namespace Inscription

variable {s : Inscription} {i : Index} {config : Config} {filled grouped next : BundleGraph}
  {key : AssetKey} {root : Root}

theorem WritesIn.stored (writes : s.WritesIn i config .empty filled grouped next) :
    s.written.Stored i config next := by
  have first := WrittenPlan.stored_of_addBundles writes.bundles
  obtain ⟨grows, _⟩ := writeGroups_spec first.keyed Plan.nodup_groupRoots writes.groups
  have groups := extends_writeGroups (w := s.written) s.written.plan.groupRoots filled
  rw [writes.groups] at groups
  rw [writes.last]
  exact first.later ((grows.linkAll _).linkAll _)
    ((groups.trans (extends_linkAll _ _)).trans (extends_linkAll _ _))

/-- Every group of the plan leads to what it loads. -/
theorem WritesIn.lists (writes : s.WritesIn i config .empty filled grouped next)
    (writable : s.written.plan.Writable i) (differ : i.IdsDiffer)
    (isRoot : key ∈ s.written.plan.groupRoots) (known : s.written.plan.root? key = some root) :
    ∃ n, s.written.Lists next key root n := by
  obtain ⟨grows, stands, edges⟩ := writes.standsIn wellKeyed_empty
  obtain ⟨n, isGroup⟩ := stands.allGroups key isRoot
  obtain ⟨_, _, sameRoot, isNode⟩ := stands.groups key n isGroup
  cases known.symm.trans sameRoot
  refine ⟨n, isNode, ?_⟩
  intro m
  have apart := WrittenPlan.ne_rootNode grows.keyed isNode
  rw [edges]
  constructor
  · rintro (none | ⟨asks, differs⟩)
    · cases none
    · refine ⟨?_, differs⟩
      rcases stands.loadEdge_cases asks with isStart | ⟨other, r, otherGroup, otherKnown, loads⟩
      · exact absurd isStart apart
      · -- the node has one id, which is that of one group
        obtain ⟨_, _, sameOther, otherNode⟩ := stands.groups other n otherGroup
        cases otherKnown.symm.trans sameOther
        have sameId := Option.some_inj.1 (isNode.symm.trans otherNode)
        rw [writable.eq_of_groupId differ known otherKnown sameId]
        exact loads
  · rintro ⟨loads, differs⟩
    exact .inr ⟨.inl ⟨key, n, root, isGroup, known, (WrittenPlan.mem_groupEdges apart).2 loads⟩,
      differs⟩

end Inscription

namespace Plan

variable {p : Plan} {i : Index} {config : Config} {key : AssetKey} {root : Root}

/-- What the group of a root lists once the plan is written. -/
theorem Writable.listed (writable : p.Writable i) (differ : i.IdsDiffer) {written : BundleGraph}
    (wrote : (BundleGraph.empty.writePlan i config p).2.result = .ok ())
    (same : (BundleGraph.empty.writePlan i config p).1 = written)
    (known : p.root? key = some root) (creates : root.triggers.createsGroup = true) :
    (∀ b, b ∈ written.bundlesInGroup (p.groupId root) true ↔
      ∃ c, p.LoadsBundle i config key c ∧ p.gathered i config c.id = some b) ∧
    ((written.bundlesInGroup (p.groupId root) true).map Bundle.id).Nodup ∧
    ∃ entry, (written.bundlesInGroup (p.groupId root) true).filter
      (fun b => decide (root.assetId ∈ b.entryAssetIds)) = [entry] := by
  obtain ⟨s, filled, grouped, rfl, writes⟩ := writePlan_ok_iff.1 wrote
  rw [same] at writes
  have isRoot : key ∈ s.written.plan.groupRoots := mem_groupRoots.2 ⟨root, known, creates⟩
  have own := writable.assigned.mem_members_self isRoot
  have stored := writes.stored
  obtain ⟨n, lists⟩ := writes.lists writable differ isRoot known
  exact ⟨fun b => stored.mem_listed own lists, stored.nodup_listed _,
    stored.exists_entry writable differ own lists known⟩

end Plan

/-- Writing the plan of a target into an empty graph, where bundles with one id have the same type
and hold the same assets. The plan is written, and the group of each root that has one lists no
bundle twice. It lists exactly what its members package and what they load, and the root enters by
one of the bundles that it lists. -/
theorem written_groups_list_the_plan (g : AssetGraph) (config : Config) (entries : List Entry)
    (p : Plan) (success : ((Index.ofGraph g).planTarget config entries).result = .ok p)
    (apart : ∀ origin b other c, (origin, .ok b) ∈ p.plannedBundles (.ofGraph g) config →
      (other, .ok c) ∈ p.plannedBundles (.ofGraph g) config → b.id = c.id →
        b.fileType = c.fileType ∧ b.assetIds = c.assetIds) :
    (BundleGraph.empty.writePlan (.ofGraph g) config p).2.result = .ok () ∧
    ∀ key root, p.root? key = some root → root.triggers.createsGroup = true →
      let listed := (BundleGraph.empty.writePlan (.ofGraph g) config p).1.bundlesInGroup
        (p.groupId root) true
      (listed.map Bundle.id).Nodup ∧
      (∀ b ∈ listed, ∃ fileType assets inline, p.GroupLoads key fileType assets inline ∧
        b.Holds (.ofGraph g) fileType assets) ∧
      (∀ fileType assets inline, p.GroupLoads key fileType assets inline →
        ∃ b ∈ listed, b.Holds (.ofGraph g) fileType assets) ∧
      ∃! b, b ∈ listed ∧ root.assetId ∈ b.entryAssetIds := by
  have writable := Plan.writable_of_planTarget success
  have differ := Index.idsDiffer_ofGraph g
  have wrote : (BundleGraph.empty.writePlan (.ofGraph g) config p).2.result = .ok () := by
    refine writable.writes differ ?_
    intro b left c right sameId
    obtain ⟨origin, planned⟩ := mem_made.1 left
    obtain ⟨other, otherPlanned⟩ := mem_made.1 right
    exact (apart origin b other c planned otherPlanned sameId).2
  refine ⟨wrote, ?_⟩
  intro key root known creates
  obtain ⟨mem, nodup, entry, single⟩ := writable.listed differ wrote rfl known creates
  -- what a bundle has become holds what the bundle was to hold
  have holds {c b : Bundle} (loads : p.LoadsBundle (.ofGraph g) config key c)
      (became : p.gathered (.ofGraph g) config c.id = some b) {fileType : FileType}
      {assets : KeySet AssetKey} (contents : c.Holds (.ofGraph g) fileType assets) :
      b.Holds (.ofGraph g) fileType assets := by
    obtain ⟨origin, planned, _⟩ := loads
    obtain ⟨⟨first, isFirst, same⟩, _⟩ := Plan.gathered_eq_some became
    obtain ⟨sameId, other, otherPlanned⟩ := Plan.firstBundle?_eq_some isFirst
    obtain ⟨sameType, sameAssets⟩ := apart other first origin c otherPlanned planned sameId
    rw [same.holds_iff, Bundle.Holds, sameType, sameAssets]
    exact contents
  refine ⟨nodup, ?_, ?_, entry, ?_, ?_⟩
  · intro b listed
    obtain ⟨c, loads, became⟩ := (mem b).1 listed
    obtain ⟨fileType, assets, isLoaded, contents⟩ := loads.groupLoads
    exact ⟨fileType, assets, c.isInline, isLoaded, holds loads became contents⟩
  · intro fileType assets inline isLoaded
    obtain ⟨c, loads, contents, _⟩ := writable.exists_loadsBundle config isLoaded
    obtain ⟨b, became⟩ := loads.exists_gathered
    exact ⟨b, (mem b).2 ⟨c, loads, became⟩, holds loads became contents⟩
  · have listed : entry ∈ [entry] := List.mem_singleton_self entry
    rw [← single, List.mem_filter, decide_eq_true_eq] at listed
    exact listed
  · rintro b ⟨listed, enters⟩
    have isEntry : b ∈ [entry] := by
      rw [← single, List.mem_filter, decide_eq_true_eq]
      exact ⟨listed, enters⟩
    exact List.mem_singleton.1 isEntry

/-- The pages `a` and `b` are loaded lazily. Both need a library and a style sheet that is not to be
moved, and `a` needs a vendor's code. -/
def pagesWithStyle : AssetGraph :=
  let dependency (id : String) (priority : Priority) : AssetGraph.Node :=
    .dependency { id, specifier := id, priority }
  { nodes := [.root, .dependency { id := "entry", specifier := "index", isEntry := true },
      .asset { id := "index" }, dependency "load a" .lazy, .asset { id := "a" },
      dependency "load b" .lazy, .asset { id := "b" }, .asset { id := "lib" },
      dependency "a to lib" .sync, dependency "b to lib" .sync,
      .asset { id := "style", fileType := .css, isSplittable := false },
      dependency "a to style" .sync, dependency "b to style" .sync,
      .asset { id := "vendor", filePath := ⟨"/vendor"⟩ }, dependency "a to vendor" .sync]
    edges := [(0, 1), (1, 2), (2, 3), (3, 4), (2, 5), (5, 6), (4, 8), (8, 7), (6, 9), (9, 7),
      (4, 11), (11, 10), (6, 12), (12, 10), (4, 14), (14, 13)] }

def pagesWithStyleEntries : List Entry :=
  [⟨{ id := "entry", specifier := "index", isEntry := true }, 2, {}⟩]

def pagesWithStyleConfig : Config where
  minBundleSize := 0
  manualRules := [{ name := "vendor", assets := ["/vendor"] }]

/-- The pages have one bundle for the style sheet between them. The page `a` lists it, with the
shared library, the bundle of the vendor and its own code. -/
theorem pagesWithStyle_listed :
    ∃ p root, ((Index.ofGraph pagesWithStyle).planTarget pagesWithStyleConfig
        pagesWithStyleEntries).result = .ok p ∧
      p.root? 0 = some root ∧
      let written := BundleGraph.empty.writePlan (.ofGraph pagesWithStyle) pagesWithStyleConfig p
      let listed := written.1.bundlesInGroup (p.groupId root) true
      written.2.result = .ok () ∧
      listed.map Bundle.assetIds = [["lib"], ["vendor"], ["style"], ["a"]] ∧
      (listed.map Bundle.id).Nodup ∧ ∃! b, b ∈ listed ∧ root.assetId ∈ b.entryAssetIds := by
  have returns : ((Index.ofGraph pagesWithStyle).planTarget pagesWithStyleConfig
      pagesWithStyleEntries).result.map (fun p =>
        let planned := made (p.plannedBundles (.ofGraph pagesWithStyle) pagesWithStyleConfig)
        (decide (∀ b ∈ planned, ∀ c ∈ planned, b.id = c.id →
            b.fileType = c.fileType ∧ b.assetIds = c.assetIds),
          (p.root? 0).map fun root => (root.triggers.createsGroup,
            ((BundleGraph.empty.writePlan (.ofGraph pagesWithStyle) pagesWithStyleConfig
              p).1.bundlesInGroup (p.groupId root) true).map Bundle.assetIds))) =
      .ok (true, some (true, [["lib"], ["vendor"], ["style"], ["a"]])) := by decide +kernel
  obtain ⟨p, success, same⟩ := map_eq_ok_iff.1 returns
  obtain ⟨apart, page⟩ := Prod.mk.inj same
  obtain ⟨root, known, page⟩ := Option.map_eq_some_iff.1 page
  obtain ⟨creates, listed⟩ := Prod.mk.inj page
  obtain ⟨wrote, groups⟩ := written_groups_list_the_plan pagesWithStyle _ _ p success
    fun origin b other c left right => of_decide_eq_true apart b (mem_made.2 ⟨origin, left⟩) c
      (mem_made.2 ⟨other, right⟩)
  obtain ⟨nodup, _, _, entry⟩ := groups 0 root known creates
  exact ⟨p, root, success, known, wrote, listed, nodup, entry⟩

end CodeSplit
