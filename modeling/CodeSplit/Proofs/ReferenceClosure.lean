import CodeSplit.Proofs.GroupRetention
import CodeSplit.Proofs.PlanContents
import CodeSplit.Proofs.WrittenPlans

/-!
References between bundles and the groups that load them. What a root brings along is loaded in
every group that the root is a member of, with one exception: a root that is in a group only because
a member reuses it does not bring along what it loads in parallel. A group also loads bundles that
other roots share with a member by having the same contents, and those bring along their own.
-/
namespace CodeSplit

open BundleGraph

namespace Plan

variable {p q : Plan} {i : Index} {config : Config} {entries : List Entry}
  {group root other : AssetKey}

/-- The groups of roots are those that the edges give. -/
def Assigned (p : Plan) : Prop := p.withGroups.ownGroups = p.ownGroups

theorem assigned_withGroups (p : Plan) : p.withGroups.Assigned := rfl

theorem Assigned.of_sameShape (assigned : p.Assigned) (same : SameShape p q) : q.Assigned := by
  unfold Assigned withGroups settledGroups groupRounds initialGroups at assigned ⊢
  rw [same.edges, same.roots, same.ownGroups]
  exact assigned

theorem Removes.assigned (removes : p.Removes i group q) (assigned : p.Assigned) : q.Assigned := by
  rcases removes.effects with enriches | ⟨_, _, _, _, enriches⟩
  · exact assigned.of_sameShape enriches.toSameShape
  · exact (assigned_withGroups _).of_sameShape enriches.toSameShape

theorem assigned_of_planTarget (success : (i.planTarget config entries).result = .ok p) :
    p.Assigned := by
  obtain ⟨placed, places, limited⟩ := Index.places_of_planTarget success
  obtain ⟨_, shape⟩ := places.sameShape
  obtain ⟨_, run⟩ := removesIn_of_limitRequests limited
  exact run.keeps (fun _ _ _ assigned removes => removes.assigned assigned)
    ((assigned_withGroups _).of_sameShape shape)

theorem Assigned.groupsOf_eq (assigned : p.Assigned) (root : AssetKey) :
    p.withGroups.groupsOf root = p.groupsOf root := by
  unfold groupsOf
  rw [assigned]

/-- A group has its root for a member. -/
theorem Assigned.mem_members_self (assigned : p.Assigned) (isGroup : group ∈ p.groupRoots) :
    group ∈ p.members group := by
  refine mem_members.2 ⟨group, ?_, .refl⟩
  rw [← assigned.groupsOf_eq]
  exact mem_groupsOf_withGroups.2 ⟨isGroup, .refl⟩

/-- What an own member loads along is in the group. -/
theorem Assigned.mem_members_of_edge (assigned : p.Assigned) {e : BundleEdge} (listed : e ∈ p.edges)
    (joint : e.triggers.createsGroup = false) (own : e.source ∈ p.ownMembers group) :
    e.target ∈ p.members group := by
  refine mem_members.2 ⟨e.target, ?_, .refl⟩
  rw [mem_ownMembers, ← assigned.groupsOf_eq] at own
  rw [← assigned.groupsOf_eq]
  exact settled_withGroups p e listed joint group own

theorem mem_members_of_reuses (member : root ∈ p.members group) (reuses : p.Reuses root other) :
    other ∈ p.members group := by
  obtain ⟨own, loads, chain⟩ := mem_members.1 member
  exact mem_members.2 ⟨own, loads, chain.tail reuses⟩

/-- What a root brings along, by the origin of the bundle: the shared and manual bundles that it
loads, the bundles of roots that it reuses, and the main bundles of roots that it loads along. -/
inductive Brings (p : Plan) (root : AssetKey) : BundleOrigin → Prop
  | loaded {fileType : FileType} {consumers : KeySet AssetKey} : root ∈ consumers →
      Brings p root (.loaded fileType consumers)
  | reused {other : AssetKey} {fileType : FileType} : p.Reuses root other →
      Brings p root (.bucket other fileType)
  | along {e : BundleEdge} {r : Root} : e ∈ p.edges → e.triggers.createsGroup = false →
      e.source = root → p.root? e.target = some r →
        Brings p root (.bucket e.target (p.bucketType e.target r.fileType))

/-- The bundle is one of a root that is in the group through reuse only, and the other is the main
bundle of a root that it loads along and that is not in the group. -/
def ReusedLoadsAlong (p : Plan) (i : Index) (config : Config) (group : AssetKey)
    (bundleId otherId : String) : Prop :=
  ∃ e ∈ p.edges, ∃ r fileType, e.triggers.createsGroup = false ∧ e.source ∈ p.reusedMembers group ∧
    e.target ∉ p.members group ∧ p.WritesAs i config (.bucket e.source fileType) bundleId ∧
    p.root? e.target = some r ∧
    p.WritesAs i config (.bucket e.target (p.bucketType e.target r.fileType)) otherId

/-- The bundle is also that of a root that is not in the group, of the same plan or of another one,
which brings along the other. -/
def OutsiderBrings (p : Plan) (plans : List Plan) (i : Index) (config : Config) (group : AssetKey)
    (bundleId otherId : String) : Prop :=
  ∃ q ∈ plans, ∃ r fileType origin, (q = p → r ∉ p.members group) ∧
    q.WritesAs i config (.bucket r fileType) bundleId ∧ q.Brings r origin ∧
    q.WritesAs i config origin otherId

end Plan

namespace Inscription

variable {g : BundleGraph} {i : Index} {config : Config} {s : Inscription}

/-- What edges to loaded nodes a plan asks for: those from the root of the graph to groups, and
those from a group to what it loads. -/
theorem StandsIn.loadEdge_cases (stands : s.StandsIn i config g) {source target : NodeId}
    (asks : s.Asks ⟨source, target, .bundle⟩) :
    source = rootNode ∨ ∃ key root, s.groups.get? key = some source ∧
      s.written.plan.root? key = some root ∧ target ∈ s.written.groupNodes key := by
  rcases asks with ⟨key, node, root, isNode, known, listed⟩ | loads | links
  · unfold WrittenPlan.groupEdges at listed
    rcases List.mem_append.1 listed with start | loads
    · split at start
      · cases List.mem_singleton.1 start
        exact .inl rfl
      · cases start
    · obtain ⟨_, member, same⟩ := List.mem_map.1 loads
      cases same
      exact .inr ⟨key, root, isNode, known, member⟩
  · obtain ⟨_, _, _, _, _, _, same, _⟩ := WrittenPlan.loadEdges_cases loads
    cases same
  · obtain ⟨link, _, made⟩ := (WrittenPlan.mem_dependencyEdges stands.links).1 links
    obtain ⟨_, _, _, ⟨_, _, _, same⟩ | ⟨_, _, _, same⟩⟩ := WrittenPlan.dependencyEdge?_cases made
    · cases same
    · cases same

/-- An edge from a group to a bundle is that of a root of the plan which has the group. -/
theorem StandsIn.group (stands : s.StandsIn i config g) (keyed : g.WellKeyed)
    {source target : NodeId} {group : BundleGroup} (isGroup : g.groupAt? source = some group)
    (asks : s.Asks ⟨source, target, .bundle⟩) :
    ∃ key ∈ s.written.plan.groupRoots, ∃ root, s.written.plan.root? key = some root ∧
      group.id = s.written.plan.groupId root := by
  rcases stands.loadEdge_cases asks with rfl | ⟨key, root, isNode, known, _⟩
  · -- the root of the graph is no group
    cases keyed.root.symm.trans (groupAt?_eq_some_iff.1 isGroup)
  · obtain ⟨isRoot, other, sameRoot, named⟩ := stands.groups key source isNode
    cases known.symm.trans sameRoot
    have same := (getElem?_keys_of_groupAt? isGroup).symm.trans named
    exact ⟨key, isRoot, root, known, Option.some_inj.1 same⟩

/-- A group has an edge to everything that it loads. -/
theorem StandsIn.asks_of_loads (stands : s.StandsIn i config g) (keyed : g.WellKeyed)
    (assigned : s.written.plan.Assigned) {key : AssetKey} (isRoot : key ∈ s.written.plan.groupRoots)
    {root : Root} (known : s.written.plan.root? key = some root) {node : NodeId}
    (isNode : g.keys[node]? = some (s.written.plan.groupId root)) {c : WrittenBundle}
    (listed : c ∈ s.written.bundles) (loads : s.written.Loads key c) :
    s.Asks ⟨node, c.node, .bundle⟩ := by
  obtain ⟨other, found⟩ := stands.allGroups key isRoot
  obtain ⟨_, otherRoot, sameRoot, isOther⟩ := stands.groups key other found
  cases known.symm.trans sameRoot
  cases keyed.eq_of_key isNode isOther
  refine .inl ⟨key, node, root, found, known,
    List.mem_append_right _ (List.mem_map.2 ⟨c.node, ?_, rfl⟩)⟩
  exact (WrittenPlan.mem_groupNodes (assigned.mem_members_self isRoot)).2 ⟨c, listed, rfl, loads⟩

/-- A reference leads from a bundle of some root to a bundle that the root brings along. -/
theorem StandsIn.reference (stands : s.StandsIn i config g) {source target : NodeId}
    (asks : s.Asks ⟨source, target, .references⟩) :
    ∃ root, ∃ b ∈ s.written.bundles, (∃ fileType, b.origin = .bucket root fileType) ∧
      b.node = source ∧ ∃ c ∈ s.written.bundles, s.written.plan.Brings root c.origin ∧
        c.node = target := by
  rcases asks with ⟨key, node, root, _, _, listed⟩ | loads | links
  · unfold WrittenPlan.groupEdges at listed
    rcases List.mem_append.1 listed with start | loads
    · split at start
      · cases List.mem_singleton.1 start
      · cases start
    · obtain ⟨_, _, same⟩ := List.mem_map.1 loads
      cases same
  · obtain ⟨root, type, source, found, c, isBundle, same, brings⟩ :=
      WrittenPlan.loadEdges_cases loads
    cases same
    obtain ⟨b, listed, origin, same⟩ := WrittenPlan.origin_of_sourceNode? found
    refine ⟨root, b, listed, origin, same, c, isBundle, ?_, rfl⟩
    rcases brings with ⟨fileType, consumers, origin, consumer⟩ | ⟨other, fileType, origin, reuses⟩
    · rw [origin]
      exact .loaded consumer
    · rw [origin]
      exact .reused reuses
  · obtain ⟨link, isEdge, made⟩ := (WrittenPlan.mem_dependencyEdges stands.links).1 links
    obtain ⟨type, start, found, ⟨_, _, _, same⟩ | ⟨joint, last, isMain, same⟩⟩ :=
      WrittenPlan.dependencyEdge?_cases made
    · cases same
    · cases same
      obtain ⟨b, listed, origin, same⟩ := WrittenPlan.origin_of_sourceNode? found
      obtain ⟨r, known, c, isBundle, mainOrigin, sameNode⟩ := WrittenPlan.origin_of_mainNode? isMain
      refine ⟨link.source, b, listed, origin, same, c, isBundle, ?_, sameNode⟩
      rw [mainOrigin]
      exact .along isEdge joint rfl known

/-- What a member of a group brings along is loaded in the group, unless the member is there through
reuse only and loads it along. -/
theorem loads_of_brings {w : WrittenPlan} (assigned : w.plan.Assigned) {group root : AssetKey}
    (member : root ∈ w.plan.members group) {c : WrittenBundle}
    (brings : w.plan.Brings root c.origin) :
    w.Loads group c ∨ ∃ e ∈ w.plan.edges, ∃ r, e.triggers.createsGroup = false ∧ e.source = root ∧
      e.source ∈ w.plan.reusedMembers group ∧ e.target ∉ w.plan.members group ∧
      w.plan.root? e.target = some r ∧
      c.origin = .bucket e.target (w.plan.bucketType e.target r.fileType) := by
  unfold WrittenPlan.Loads
  generalize c.origin = origin at brings
  cases brings with
  | loaded consumer => exact .inl ⟨root, consumer, member⟩
  | reused reuses => exact .inl (Plan.mem_members_of_reuses member reuses)
  | @along e r listed joint source known =>
    by_cases inside : e.target ∈ w.plan.members group
    · exact .inl inside
    · refine .inr ⟨e, listed, r, joint, source, ?_, inside, known, rfl⟩
      rw [← source] at member
      rcases KeySet.mem_union.1 member with own | reused
      · exact absurd (assigned.mem_members_of_edge listed joint own) inside
      · exact reused

end Inscription

/-- References from what a group loads, where bundling into an empty graph succeeds. They lead to
what the group loads too, unless they are what a root loads along that is in the group through reuse
only, or what a root outside the group brings along that has a bundle with the same contents. -/
theorem references_of_loaded_bundles (config : Config) (g : AssetGraph)
    (success : (Bundler.bundle config g .empty).2.result = .ok ()) :
    ∃ build, (Bundler.build config g).result = .ok build ∧
      ∀ group ∈ (Bundler.bundle config g .empty).1.groups,
      ∀ b ∈ (Bundler.bundle config g .empty).1.bundlesInGroup group.id true,
      ∀ other ∈ (Bundler.bundle config g .empty).1.referencedBundles b.id,
        other ∈ (Bundler.bundle config g .empty).1.bundlesInGroup group.id true ∨
        ∃ p ∈ build.plans, ∃ key root, p.root? key = some root ∧
          root.triggers.createsGroup = true ∧ group.id = p.groupId root ∧
          (p.ReusedLoadsAlong (.ofGraph g) config key b.id other.id ∨
            p.OutsiderBrings build.plans (.ofGraph g) config key b.id other.id) := by
  obtain ⟨build, ss, built, plans, keyed, stands, edges⟩ := Bundler.bundle_spec success
  obtain ⟨_, planned⟩ := Bundler.plans_of_build built
  generalize (Bundler.bundle config g .empty).1 = bg at keyed stands edges ⊢
  have isPlan {s : Inscription} (listed : s ∈ ss) : s.written.plan ∈ build.plans := by
    rw [← plans]
    exact List.mem_map_of_mem listed
  refine ⟨build, built, ?_⟩
  intro group isGroup b loaded other referenced
  obtain ⟨groupNode, groupAt⟩ := mem_groups.1 isGroup
  have groupKey := getElem?_keys_of_groupAt? groupAt
  obtain ⟨node, groupEdge, bundleAt⟩ := (keyed.mem_bundlesInGroup groupKey).1 loaded
  have bundleKey := getElem?_keys_of_bundleAt? bundleAt
  obtain ⟨otherNode, reference, otherAt⟩ := (keyed.mem_bundlesAlong bundleKey).1 referenced
  have otherKey := getElem?_keys_of_bundleAt? otherAt
  have assigned {s : Inscription} (listed : s ∈ ss) : s.written.plan.Assigned := by
    obtain ⟨entries, planned⟩ := planned _ (isPlan listed)
    exact Plan.assigned_of_planTarget planned
  obtain ⟨⟨s, listed, asksGroup⟩, _⟩ := (edges _).1 groupEdge
  obtain ⟨key, isRoot, root, known, sameId⟩ := (stands s listed).group keyed groupAt asksGroup
  obtain ⟨_, sameRoot, creates⟩ := Plan.mem_groupRoots.1 isRoot
  cases known.symm.trans sameRoot
  -- the reference is asked for by a plan for one of its roots
  obtain ⟨⟨t, asking, asksReference⟩, _⟩ := (edges _).1 reference
  obtain ⟨r, c, isBundle, ⟨fileType, origin⟩, rfl, d, isOther, brings, rfl⟩ :=
    (stands t asking).reference asksReference
  obtain ⟨writes, bundleId⟩ := (stands t asking).bundles c isBundle
  obtain ⟨writesOther, otherId⟩ := (stands t asking).bundles d isOther
  rw [origin, ← Option.some_inj.1 (bundleKey.symm.trans bundleId)] at writes
  rw [← Option.some_inj.1 (otherKey.symm.trans otherId)] at writesOther
  by_cases member : t.written.plan = s.written.plan ∧ r ∈ s.written.plan.members key
  · obtain ⟨same, member⟩ := member
    rw [← same] at member isRoot known sameId
    rcases Inscription.loads_of_brings (assigned asking) member brings with
      loads | ⟨e, isEdge, main, joint, rfl, reused, outside, isMain, otherOrigin⟩
    · have asks := (stands t asking).asks_of_loads keyed (assigned asking) isRoot known
        (sameId ▸ groupKey) isOther loads
      have apart : groupNode ≠ d.node := by
        rintro rfl
        cases (groupAt?_eq_some_iff.1 groupAt).symm.trans (bundleAt?_eq_some_iff.1 otherAt)
      exact .inl ((keyed.mem_bundlesInGroup groupKey).2
        ⟨d.node, (edges _).2 ⟨⟨t, asking, asks⟩, apart⟩, otherAt⟩)
    · rw [otherOrigin] at writesOther
      exact .inr ⟨_, isPlan asking, key, root, known, creates, sameId, .inl ⟨e, isEdge, main,
        fileType, joint, reused, outside, writes, isMain, writesOther⟩⟩
  · refine .inr ⟨_, isPlan listed, key, root, known, creates, sameId, .inr ⟨_, isPlan asking, r,
      fileType, d.origin, fun same inside => member ⟨same, inside⟩, writes, brings, writesOther⟩⟩

/-- A page and a library are loaded lazily, the page needs the library at once, and the library
loads a chunk in parallel. -/
def reusedWithChunk : AssetGraph :=
  let dependency (id : String) (priority : Priority) : AssetGraph.Node :=
    .dependency { id, specifier := id, priority }
  { nodes := [.root, .dependency { id := "entry", specifier := "index", isEntry := true },
      .asset { id := "index" }, dependency "load page" .lazy, .asset { id := "page" },
      dependency "load lib" .lazy, .asset { id := "lib" }, dependency "page to lib" .sync,
      dependency "lib to chunk" .parallel, .asset { id := "chunk" }]
    edges := [(0, 1), (1, 2), (2, 3), (3, 4), (2, 5), (5, 6), (4, 7), (7, 6), (6, 8), (8, 9)] }

theorem reusedWithChunk_facts :
    (Bundler.bundle {} reusedWithChunk .empty).2.result = .ok () ∧
      ∃ group ∈ (Bundler.bundle {} reusedWithChunk .empty).1.groups,
      ∃ b ∈ (Bundler.bundle {} reusedWithChunk .empty).1.bundlesInGroup group.id true,
      ∃ other ∈ (Bundler.bundle {} reusedWithChunk .empty).1.referencedBundles b.id,
        (group.entryAssetId, b.assetIds, other.assetIds) = ("page", ["lib"], ["chunk"]) ∧
        other ∉ (Bundler.bundle {} reusedWithChunk .empty).1.bundlesInGroup group.id true := by
  decide +kernel

/-- The group of the page loads the library without the chunk that the library refers to. -/
theorem reusedWithChunk_not_closed :
    (Bundler.bundle {} reusedWithChunk .empty).2.result = .ok () ∧
      ¬∀ group ∈ (Bundler.bundle {} reusedWithChunk .empty).1.groups,
        ∀ b ∈ (Bundler.bundle {} reusedWithChunk .empty).1.bundlesInGroup group.id true,
        ∀ other ∈ (Bundler.bundle {} reusedWithChunk .empty).1.referencedBundles b.id,
          other ∈ (Bundler.bundle {} reusedWithChunk .empty).1.bundlesInGroup group.id true := by
  obtain ⟨success, group, isGroup, b, loaded, other, referenced, _, absent⟩ := reusedWithChunk_facts
  exact ⟨success, fun closed => absent (closed group isGroup b loaded other referenced)⟩

theorem reusedWithChunk_reference :
    (Bundler.bundle {} reusedWithChunk .empty).2.result = .ok () ∧
      ∃ build, (Bundler.build {} reusedWithChunk).result = .ok build ∧
        ∃ b other : Bundle, b.assetIds = ["lib"] ∧ other.assetIds = ["chunk"] ∧
          ∃ p ∈ build.plans, ∃ key root, p.root? key = some root ∧
            (p.ReusedLoadsAlong (.ofGraph reusedWithChunk) {} key b.id other.id ∨
              p.OutsiderBrings build.plans (.ofGraph reusedWithChunk) {} key b.id other.id) := by
  obtain ⟨success, group, isGroup, b, loaded, other, referenced, same, absent⟩ :=
    reusedWithChunk_facts
  obtain ⟨_, isLibrary, isChunk⟩ := And.imp_right Prod.mk.inj (Prod.mk.inj same)
  obtain ⟨build, built, each⟩ := references_of_loaded_bundles {} reusedWithChunk success
  obtain ⟨p, isPlan, key, root, known, _, _, reason⟩ :=
    (each group isGroup b loaded other referenced).resolve_left absent
  exact ⟨success, build, built, b, other, isLibrary, isChunk, p, isPlan, key, root, known, reason⟩

end CodeSplit
