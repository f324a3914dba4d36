import CodeSplit.Proofs.AssetConservation
import CodeSplit.Proofs.SharedBundles
import CodeSplit.Proofs.WrittenPlans

/-!
Dependencies between roots in the written graph. Every root has its own asset in its main bundle,
and all triggers of the dependencies that lead to it. So a dependency from one root to another is
written as an edge to the group of the other or to its main bundle, except where the dependency
alone would create a group and all of them together do not: a root that is isolated for one parent
and inline for another.
-/
namespace CodeSplit

open BundleGraph Relation

namespace Triggers

variable {a b c : Triggers}

/-- The second has every trigger of the first. -/
def Within (a b : Triggers) : Prop := a.union b = b

theorem Within.refl (a : Triggers) : a.Within a := by
  simp [Within, union]

theorem within_union_left (a b : Triggers) : a.Within (a.union b) := by
  simp [Within, union]

theorem within_union_right (a b : Triggers) : b.Within (a.union b) := by
  simp only [Within, union, mk.injEq]
  refine ⟨?_, ?_, ?_, ?_, ?_, ?_, ?_⟩
  all_goals rw [Bool.or_left_comm, Bool.or_self]

theorem Within.trans (first : a.Within b) (second : b.Within c) : a.Within c := by
  unfold Within at first second ⊢
  rw [← second, ← first]
  simp [union, Bool.or_assoc]

/-- A union of triggers has those of each part. -/
theorem within_foldl {cs : List Creation} {c : Creation} (listed : c ∈ cs) (start : Triggers) :
    c.triggers.Within (cs.foldl (fun t c => t.union c.triggers) start) := by
  have grows (cs : List Creation) (start : Triggers) :
      start.Within (cs.foldl (fun t c => t.union c.triggers) start) := by
    induction cs generalizing start with
    | nil => exact .refl start
    | cons d cs ih => exact (within_union_left start d.triggers).trans (ih _)
  induction cs generalizing start with
  | nil => cases listed
  | cons d cs ih =>
    rcases List.mem_cons.1 listed with rfl | later
    · exact (within_union_right start c.triggers).trans (grows cs _)
    · exact ih later _

/-- More triggers create a group too, unless the only one that does is for isolation and an inline
one is added. -/
theorem Within.createsGroup (within : a.Within b) (creates : a.createsGroup = true)
    (joint : b.createsGroup = false) :
    a.isolated = true ∧ a.inline = false ∧ b.isolated = true ∧ b.inline = true := by
  have lazy := congrArg Triggers.lazy within
  have entry := congrArg Triggers.entry within
  have conditional := congrArg Triggers.conditional within
  have environment := congrArg Triggers.environment within
  have isolated := congrArg Triggers.isolated within
  simp only [union] at lazy entry conditional environment isolated
  simp only [Triggers.createsGroup] at creates joint
  grind

end Triggers

/-- An edge that the walks find leads from a root to a root that has all triggers of the edge. -/
theorem Index.exists_roots_of_edge {i : Index} {entries : List Entry} (inside : i.ResolvesInside)
    {e : BundleEdge} (listed : e ∈ i.bundleEdges (i.roots entries)) :
    (∃ source, (i.roots entries).get? e.source = some source) ∧
      ∃ target, (i.roots entries).get? e.target = some target ∧
        e.triggers.Within target.triggers := by
  obtain ⟨key, root, known, asset, walked, crossing⟩ := Index.mem_bundleEdges.1 listed
  obtain ⟨rfl, rfl, link, member, resolved, _, triggers, starts⟩ := Index.cross_cases crossing
  refine ⟨⟨root, known⟩, ?_⟩
  -- the dependency is among those that make its target a root
  have reachable : i.Reachable entries e.declaredBy :=
    Index.Reachable.of_reachedBy (Index.mem_reachedBy.2 ⟨root, known, walked⟩)
  have boundary : (⟨e.declaredBy, e.target, link.dependency, e.triggers⟩ : Boundary) ∈
      i.boundaries entries :=
    Index.mem_boundaries.2 ⟨Index.mem_reachable.2 reachable, link, member, resolved, rfl, triggers,
      starts⟩
  have created : (⟨e.target, link.dependency, e.triggers⟩ : Creation) ∈ i.creations entries :=
    List.mem_append_right _ (List.mem_map.2 ⟨_, boundary, rfl⟩)
  obtain ⟨isAsset, known⟩ := inside e.declaredBy e.target ⟨link, member, resolved⟩
  refine ⟨Root.ofCreations isAsset ((i.creations entries).filter (·.asset = e.target)), ?_, ?_⟩
  · exact Index.get?_roots_eq_some_iff.2 ⟨List.mem_map.2 ⟨_, created, rfl⟩, _, known, rfl⟩
  · exact Triggers.within_foldl (List.mem_filter.2 ⟨created, by simp⟩) {}

namespace Plan

variable {p q r : Plan} {i : Index} {config : Config} {entries : List Entry} {group : AssetKey}

/-- Edges lead from a root to a root that has all triggers of the edge. -/
def Anchored (p : Plan) : Prop :=
  ∀ e ∈ p.edges, (∃ source, p.root? e.source = some source) ∧
    ∃ target, p.root? e.target = some target ∧ e.triggers.Within target.triggers

theorem anchored_of_places (inside : i.ResolvesInside) {placed : Plan}
    (places : i.Places config entries placed) : placed.Anchored := by
  obtain ⟨_, shape⟩ := places.sameShape
  intro e listed
  unfold root?
  rw [shape.roots]
  rw [shape.edges] at listed
  exact Index.exists_roots_of_edge inside listed

theorem Removes.anchored (removes : p.Removes i group q) (anchored : p.Anchored)
    (roots : p.RootsReuse) : q.Anchored := by
  intro e listed
  unfold root?
  rw [removes.roots]
  rcases removes.effects with enriches | ⟨reused, reusers, reusing, spreads, enriches⟩
  · rw [enriches.edges] at listed
    exact anchored e listed
  · rw [enriches.edges] at listed
    rcases (spreads.edges e).1 listed with old | ⟨reuser, taker, old, isEdge, _, _, rfl⟩
    · exact anchored e old
    · exact ⟨roots reuser reused (reusing reuser taker), (anchored old isEdge).2⟩

/-- Buckets have only grown. -/
structure Fills (p q : Plan) : Prop where
  roots : q.roots = p.roots
  grows : ∀ root fileType, ∀ x ∈ p.bucket root fileType, x ∈ q.bucket root fileType

theorem Fills.trans (first : Fills p q) (second : Fills q r) : Fills p r :=
  ⟨second.roots.trans first.roots, fun root fileType x held =>
    second.grows root fileType x (first.grows root fileType x held)⟩

theorem Packs.fills (packs : Packs p q) : Fills p q := ⟨packs.roots, packs.grows⟩

/-- Only roots and buckets matter. -/
theorem Fills.of_eq (fills : Fills p q) (roots : r.roots = q.roots)
    (placements : r.placements = q.placements) : Fills p r := by
  refine ⟨roots.trans fills.roots, ?_⟩
  unfold bucket buckets
  rw [placements]
  exact fills.grows

theorem fills_removeShared (p : Plan) (place : Nat) (consumers : KeySet AssetKey) :
    Fills p (p.removeShared place consumers) := by
  unfold removeShared
  split
  · exact (Packs.refl p).fills
  · rename_i b _
    exact (packs_packAll_each p consumers.toList b.fileType b.assets.toList).fills.of_eq rfl rfl

theorem fills_prune (success : (p.prune i).result = .ok q) : Fills p q := by
  have packs := packs_prune success
  exact ⟨packs.roots, packs.grows⟩

theorem fills_copyReused (p : Plan) (reused : AssetKey) (buckets : Buckets)
    (nested : List AssetKey) (outgoing : List BundleEdge) (reuser : AssetKey) :
    Fills p (p.copyReused reused buckets nested outgoing reuser) := by
  have packs : Packs p (buckets.entries.foldl
      (fun p entry => p.packAll reuser entry.1 entry.2.toList) p) :=
    .foldl (fun p entry => packs_packAll p reuser entry.1 entry.2.toList) buckets.entries p
  have rewires := rewires_rewired p reused buckets nested outgoing reuser
  have rewired : Fills p (p.rewired reused buckets nested outgoing reuser) :=
    packs.fills.of_eq (rewires.roots.trans packs.roots.symm) (placements_rewired p reused buckets
      nested outgoing reuser)
  rw [copyReused_eq]
  split
  · exact rewired.trans (Packs.foldl (fun p (b : SharedBundle) =>
      packs_packAll p reuser b.fileType b.assets.toList) _ _).fills
  · exact rewired.of_eq rfl rfl

theorem Removes.fills (removes : p.Removes i group q) : Fills p q := by
  rcases removes.cases with ⟨place, b, _, _, pruned⟩ | ⟨reused, reusers, _, _, pruned⟩
  · exact (fills_removeShared p place _).trans (fills_prune pruned)
  · have copied : Fills p (p.removeReused reused reusers) := by
      refine removeReused_induction (Fills p) (Packs.refl p).fills ?_
      intro q fills reuser _
      exact fills.trans (fills_copyReused q reused _ _ _ reuser)
    have grouped : Fills p (p.removeReused reused reusers).withGroups := copied.of_eq rfl rfl
    exact grouped.trans (fills_prune pruned)

/-- Every root has its own asset in its main bundle. -/
def Rooted (p : Plan) : Prop :=
  ∀ root r, p.root? root = some r → root ∈ p.bucket root (p.bucketType root r.fileType)

theorem Rooted.of_fills (rooted : p.Rooted) (fills : Fills p q) : q.Rooted := by
  intro root r known
  unfold root? at known
  rw [fills.roots] at known
  rw [bucketType_congr fills.roots]
  exact fills.grows _ _ _ (rooted root r known)

theorem Rooted.exists_bucket (rooted : p.Rooted) {root : AssetKey} {r : Root}
    (known : p.root? root = some r) : ∃ assets,
      (p.buckets root).get? (p.bucketType root r.fileType) = some assets ∧
        assets.isEmpty = false := by
  obtain ⟨assets, placed, packed⟩ := KeyMap.mem_setAt_iff.1 (rooted root r known)
  refine ⟨assets, placed, ?_⟩
  rw [Bool.eq_false_iff, ne_eq, KeySet.isEmpty_iff]
  exact fun none => none root packed

/-- If the asset is a root, it is in the bundles of all consumers, as an asset of its type. -/
def PlacesRoot (p : Plan) (i : Index) (entry : AssetKey × KeySet AssetKey) : Prop :=
  ∀ r, p.root? entry.1 = some r → ∀ m ∈ entry.2, ∃ asset, i.asset entry.1 = .ok asset ∧
    entry.1 ∈ p.bucket m (p.bucketType m asset.fileType)

theorem PlacesRoot.of_fills {entry : AssetKey × KeySet AssetKey} (places : p.PlacesRoot i entry)
    (fills : Fills p q) : q.PlacesRoot i entry := by
  intro r known m consumer
  unfold root? at known
  rw [fills.roots] at known
  obtain ⟨asset, isAsset, held⟩ := places r known m consumer
  refine ⟨asset, isAsset, ?_⟩
  rw [bucketType_congr fills.roots]
  exact fills.grows _ _ _ held

end Plan

/-! Placing: roots stay with themselves. -/

/-- No rule moves a root. -/
theorem Plan.root_waits_of_extraction {p : Plan} {i : Index} {config : Config} {e : Extraction}
    {packing : KeyMap AssetKey (KeySet AssetKey)}
    (success : p.extraction i config packing = .ok e) {x m : AssetKey} {r : Root}
    (known : p.root? x = some r) (waits : m ∈ packing.setAt x) : m ∈ e.consumers.setAt x := by
  refine Extraction.extraction_induction (fun e => m ∈ e.consumers.setAt x) ?_ waits success
  intro e rule key asset consumers partition waits moves
  have named := moves.named
  have notRoot : p.roots.contains key = false := by
    simp only [Plan.isNamedBy, Bool.and_eq_true, Bool.not_eq_true'] at named
    exact named.1.1.1
  have other : key ≠ x := by
    rintro rfl
    unfold Plan.root? at known
    rw [KeyMap.contains, known] at notRoot
    cases notRoot
  simpa [Extraction.move, KeyMap.setAt, KeyMap.get?_insert, other] using waits

namespace Sharing

open Plan

variable {i : Index} {config : Config} {claimed : KeySet AssetKey} {s next : Sharing} {p q : Plan}

/-- A root is never set aside. -/
theorem placesRoot_consider {entry : AssetKey × KeySet AssetKey}
    (success : consider i config claimed s entry = .ok next) : next.plan.PlacesRoot i entry := by
  intro r known m consumer
  have packs := (consider_ok success).1
  obtain ⟨asset, candidates, isAsset, rfl, ⟨shareable, rfl⟩ | ⟨_, rfl⟩⟩ := consider_cases success
  · obtain ⟨_, _, notRoot, _⟩ := isShareable_iff.1 shareable
    unfold root? at known notRoot
    rw [packs.roots] at known
    cases known.symm.trans notRoot
  · refine ⟨asset, isAsset, ?_⟩
    rw [bucketType_congr packs.roots]
    rw [packInto_eq_foldl]
    exact mem_bucket_foldl.2 (.inl ⟨m, consumer, rfl, rfl, List.mem_singleton_self _⟩)

theorem fills_settle {entry : (List AssetKey × FileType) × KeySet AssetKey}
    (success : (settle i config p entry).result = .ok q) : Fills p q := by
  obtain ⟨size, _, ⟨_, rfl⟩ | ⟨_, rfl⟩⟩ := settle_cases success
  · exact (packs_packAll_each p entry.1.1 entry.1.2 entry.2.toList).fills
  · exact (Packs.refl p).fills.of_eq rfl rfl

end Sharing

namespace Plan

variable {p q : Plan} {i : Index} {config : Config} {entries : List Entry}

theorem placesRoot_shareAssets {claimed : KeySet AssetKey}
    {packing : KeyMap AssetKey (KeySet AssetKey)}
    (success : (p.shareAssets i config claimed packing).result = .ok q)
    {entry : AssetKey × KeySet AssetKey} (listed : entry ∈ packing.entries) :
    q.PlacesRoot i entry := by
  unfold shareAssets at success
  obtain ⟨s, considered, success⟩ := Report.result_bind_eq_ok.1 success
  obtain ⟨shared, settled, success⟩ := Report.result_bind_eq_ok.1 success
  cases success
  rw [Report.result_foldlM] at settled
  have settles : Fills s.plan q := by
    refine foldlM_ok_induction (fun _ q => Fills s.plan q) ?_ (Packs.refl s.plan).fills settled
    intro entry _ before after fills step
    exact fills.trans (Sharing.fills_settle step)
  have placed : ∀ entry ∈ packing.entries, s.plan.PlacesRoot i entry := by
    refine foldlM_ok_each (fun entry (s : Sharing) => s.plan.PlacesRoot i entry) ?_ considered
    intro entry before after step
    have fills := (Sharing.consider_ok step).1.fills
    exact ⟨Sharing.placesRoot_consider step, fun other places => places.of_fills fills⟩
  exact (placed entry listed).of_fills settles

theorem rooted_of_places {placed : Plan} (places : i.Places config entries placed) :
    placed.Rooted := by
  obtain ⟨target, walked, reach, packing, extracted, e, walks, consumed, moved, shared⟩ :=
    places.passes
  obtain ⟨rfl, rfl⟩ := Index.walkedPlan_ok walks
  obtain ⟨_, _, _, _, packs⟩ := isPacking_of_consumers consumed
  have same := (holds_of_consumer moved shared).1.roots
  unfold extractManualBundles at moved
  obtain ⟨_, extraction, moved⟩ := Report.result_bind_eq_ok.1 moved
  cases moved
  intro root r known
  have isRoot : (i.roots entries).get? root = some r := by
    rw [← known]
    exact congrArg (KeyMap.get? · root) same.symm
  have reached : root ∈ (i.reach (i.roots entries)).reachedBy root :=
    Index.mem_reachedBy.2 ⟨r, isRoot, .refl⟩
  have consumer : root ∈ packing.setAt root :=
    (packs root root).2 ⟨reached, .inl fun relies => relies.1 rfl⟩
  obtain ⟨consumers, found, member⟩ :=
    KeyMap.mem_setAt_iff.1 (root_waits_of_extraction extraction isRoot consumer)
  obtain ⟨asset, isAsset, held⟩ :=
    placesRoot_shareAssets shared (KeyMap.get?_eq_some_iff.1 found) r known root member
  obtain ⟨_, other, isOther, rfl⟩ := Index.get?_roots_eq_some_iff.1 isRoot
  cases (Index.asset_eq_ok_iff.1 isAsset).symm.trans isOther
  exact held

/-- What is true of the edges and the roots of a plan that is returned. -/
theorem anchored_and_rooted_of_planTarget (inside : i.ResolvesInside)
    (success : (i.planTarget config entries).result = .ok p) : p.Anchored ∧ p.Rooted := by
  obtain ⟨placed, places, limited⟩ := Index.places_of_planTarget success
  obtain ⟨_, run⟩ := removesIn_of_limitRequests limited
  have kept := run.keeps (motive := fun q => (q.Anchored ∧ q.Rooted) ∧ q.RootsReuse) ?_
    ⟨⟨anchored_of_places inside places, rooted_of_places places⟩, rootsReuse_of_places places⟩
  · exact kept.1
  · rintro before group after ⟨⟨anchored, rooted⟩, roots⟩ removes
    exact ⟨⟨removes.anchored anchored roots, rooted.of_fills removes.fills⟩,
      removes.rootsReuse roots⟩

/-- From some bundle of the first root, the graph leads to the group of the second one on demand, or
along to its main bundle, or that is the same bundle. -/
def LeadsTo (p : Plan) (i : Index) (config : Config) (bg : BundleGraph) (source target : AssetKey)
    (root : Root) : Prop :=
  ∃ fileType id, p.WritesAs i config (.bucket source fileType) id ∧
    ((∃ group ∈ bg.asyncGroups id, group.id = p.groupId root) ∨
      ∃ main, p.WritesAs i config (.bucket target (p.bucketType target root.fileType)) main ∧
        (main = id ∨ ∃ b ∈ bg.referencedBundles id, b.id = main))

/-- Every edge from the first root to the second one only isolates it, and would create a group. As
the second root is inline besides, it has none. -/
def IsolatesInline (p : Plan) (source target : AssetKey) (root : Root) : Prop :=
  root.triggers.inline = true ∧ root.triggers.createsGroup = false ∧
    ∀ e ∈ p.edges, e.source = source → e.target = target →
      e.triggers.isolated = true ∧ e.triggers.inline = false

end Plan

namespace WrittenPlan

variable {w : WrittenPlan} {i : Index} {groups : KeyMap AssetKey NodeId} {link : BundleEdge}

theorem exists_sourceNode? {root : AssetKey} (fileType : FileType) {n : NodeId}
    (isMain : w.mainNode? root = some n) : ∃ m, w.sourceNode? root fileType = some m := by
  unfold sourceNode?
  rw [isMain]
  cases w.bucketNode? root fileType with
  | none => exact ⟨n, rfl⟩
  | some m => exact ⟨m, rfl⟩

/-- The edge for a dependency of a root with a main bundle, by what the dependency leads to. -/
theorem exists_dependencyEdge {links : List Edge} (success : w.dependencyEdges i groups = .ok links)
    (listed : link ∈ w.plan.edges) {n : NodeId} (isMain : w.mainNode? link.source = some n) :
    ∃ fileType source, w.sourceNode? link.source fileType = some source ∧
      (link.triggers.createsGroup = true → ∀ group, groups.get? link.target = some group →
        ⟨source, group, .async⟩ ∈ links) ∧
      (link.triggers.createsGroup = false → ∀ target, w.mainNode? link.target = some target →
        ⟨source, target, .references⟩ ∈ links) := by
  obtain ⟨_, results, _⟩ := bind_eq_ok_iff.1 success
  obtain ⟨_, _, result⟩ := exists_of_mem_mapM results listed
  obtain ⟨asset, isAsset, _⟩ := bind_eq_ok_iff.1 result
  obtain ⟨source, found⟩ := exists_sourceNode? asset.fileType isMain
  refine ⟨asset.fileType, source, found, ?_, ?_⟩
  · intro creates group isGroup
    refine (mem_dependencyEdges success).2 ⟨link, listed, ?_⟩
    refine bind_eq_ok_iff.2 ⟨asset, isAsset, ?_⟩
    rw [found, Option.bind_some, if_pos creates, isGroup]
    rfl
  · intro joint target isTarget
    refine (mem_dependencyEdges success).2 ⟨link, listed, ?_⟩
    refine bind_eq_ok_iff.2 ⟨asset, isAsset, ?_⟩
    rw [found, Option.bind_some, if_neg (Bool.eq_false_iff.1 joint), isTarget]
    rfl

end WrittenPlan

namespace Inscription

variable {bg : BundleGraph} {i : Index} {config : Config} {s : Inscription}

/-- Every root has a main bundle, as it is packed with itself. -/
theorem StandsIn.mainNode? (stands : s.StandsIn i config bg) (rooted : s.written.plan.Rooted)
    {key : AssetKey} {r : Root} (known : s.written.plan.root? key = some r) :
    ∃ n id, s.written.mainNode? key = some n ∧ bg.keys[n]? = some id ∧
      s.written.plan.WritesAs i config
        (.bucket key (s.written.plan.bucketType key r.fileType)) id := by
  obtain ⟨assets, placed, some⟩ := rooted.exists_bucket known
  obtain ⟨b, listed, origin⟩ := stands.allBundles _
    (Plan.mem_plannedBundles_bucket.2 ⟨r, assets, known, placed, some, rfl⟩)
  obtain ⟨n, found⟩ := WrittenPlan.exists_bucketNode? listed origin
  have isMain : s.written.mainNode? key = Option.some n :=
    Option.bind_eq_some_iff.2 ⟨r, known, found⟩
  obtain ⟨main, isBundle, mainOrigin, rfl⟩ := WrittenPlan.origin_of_bucketNode? found
  obtain ⟨writes, isKey⟩ := stands.bundles main isBundle
  rw [mainOrigin] at writes
  exact ⟨_, main.id, isMain, isKey, writes⟩

theorem StandsIn.writes_of_sourceNode? (stands : s.StandsIn i config bg) {root : AssetKey}
    {fileType : FileType} {n : NodeId} (found : s.written.sourceNode? root fileType = some n) :
    ∃ packed id, s.written.plan.WritesAs i config (.bucket root packed) id ∧
      bg.keys[n]? = some id := by
  obtain ⟨b, listed, ⟨packed, origin⟩, rfl⟩ := WrittenPlan.origin_of_sourceNode? found
  obtain ⟨writes, isKey⟩ := stands.bundles b listed
  rw [origin] at writes
  exact ⟨packed, b.id, writes, isKey⟩

section Leading

variable (stands : s.StandsIn i config bg) (keyed : bg.WellKeyed)
  (asked : ∀ e, s.Asks e → e.source ≠ e.target → e ∈ bg.edges)
  (anchored : s.written.plan.Anchored) (rooted : s.written.plan.Rooted) {e : BundleEdge}
  (listed : e ∈ s.written.plan.edges) {root : Root}
  (known : s.written.plan.root? e.target = some root)

include stands keyed asked anchored rooted listed known

/-- A dependency that creates a group leads to it, if its target has one. -/
theorem StandsIn.leadsTo_group (creates : e.triggers.createsGroup = true)
    (hasGroup : root.triggers.createsGroup = true) :
    s.written.plan.LeadsTo i config bg e.source e.target root := by
  obtain ⟨⟨source, isSource⟩, _⟩ := anchored e listed
  obtain ⟨_, _, sourceMain, _⟩ := stands.mainNode? rooted isSource
  obtain ⟨fileType, node, found, onDemand, _⟩ :=
    WrittenPlan.exists_dependencyEdge stands.links listed sourceMain
  obtain ⟨packed, id, writes, isKey⟩ := stands.writes_of_sourceNode? found
  obtain ⟨groupNode, isNode⟩ :=
    stands.allGroups e.target (Plan.mem_groupRoots.2 ⟨root, known, hasGroup⟩)
  obtain ⟨_, same, isRoot, groupKey⟩ := stands.groups e.target groupNode isNode
  cases known.symm.trans isRoot
  obtain ⟨group, groupAt, sameId⟩ :=
    keyed.exists_groupAt? groupKey (s.written.plan.isGroupId_groupId root)
  have apart : node ≠ groupNode := by
    rintro rfl
    obtain ⟨bundle, planned, rfl⟩ := writes
    have digest := Plan.isDigest_of_planned planned
    rw [Option.some_inj.1 (isKey.symm.trans groupKey)] at digest
    exact not_isGroupId_of_isDigest digest (s.written.plan.isGroupId_groupId root)
  have isEdge := asked _ (.inr (.inr (onDemand creates groupNode isNode))) apart
  exact ⟨packed, id, writes,
    .inl ⟨group, (keyed.mem_asyncGroups isKey).2 ⟨groupNode, isEdge, groupAt⟩, sameId⟩⟩

/-- A dependency that does not create a group leads to the main bundle of its target. -/
theorem StandsIn.leadsTo_main (joint : e.triggers.createsGroup = false) :
    s.written.plan.LeadsTo i config bg e.source e.target root := by
  obtain ⟨⟨source, isSource⟩, _⟩ := anchored e listed
  obtain ⟨_, _, sourceMain, _⟩ := stands.mainNode? rooted isSource
  obtain ⟨fileType, node, found, _, along⟩ :=
    WrittenPlan.exists_dependencyEdge stands.links listed sourceMain
  obtain ⟨packed, id, writes, isKey⟩ := stands.writes_of_sourceNode? found
  obtain ⟨mainNode, main, isMain, mainKey, writesMain⟩ := stands.mainNode? rooted known
  refine ⟨packed, id, writes, .inr ⟨main, writesMain, ?_⟩⟩
  by_cases same : node = mainNode
  · rw [same] at isKey
    exact .inl (Option.some_inj.1 (mainKey.symm.trans isKey))
  · obtain ⟨bundle, planned, rfl⟩ := writesMain
    obtain ⟨b, bundleAt, sameId⟩ :=
      keyed.exists_bundleAt? mainKey (Plan.isDigest_of_planned planned)
    have isEdge := asked _ (.inr (.inr (along joint mainNode isMain))) same
    exact .inr ⟨b, (keyed.mem_bundlesAlong isKey).2 ⟨mainNode, isEdge, bundleAt⟩, sameId⟩

theorem StandsIn.leadsTo_or_isolatesInline :
    s.written.plan.LeadsTo i config bg e.source e.target root ∨
      s.written.plan.IsolatesInline e.source e.target root := by
  by_cases joint : ∃ f ∈ s.written.plan.edges, f.source = e.source ∧ f.target = e.target ∧
      f.triggers.createsGroup = false
  · obtain ⟨f, isEdge, source, target, joint⟩ := joint
    rw [← target] at known
    rw [← source, ← target]
    exact .inl (stands.leadsTo_main keyed asked anchored rooted isEdge known joint)
  · have creates : ∀ f ∈ s.written.plan.edges, f.source = e.source → f.target = e.target →
        f.triggers.createsGroup = true := by
      intro f isEdge source target
      by_contra none
      exact joint ⟨f, isEdge, source, target, Bool.eq_false_iff.2 none⟩
    cases hasGroup : root.triggers.createsGroup with
    | true =>
      exact .inl (stands.leadsTo_group keyed asked anchored rooted listed known
        (creates e listed rfl rfl) hasGroup)
    | false =>
      -- the triggers of the edge are among those of the root, which has no group in spite of them
      have lost : ∀ f ∈ s.written.plan.edges, f.source = e.source → f.target = e.target →
          f.triggers.isolated = true ∧ f.triggers.inline = false ∧
            root.triggers.isolated = true ∧ root.triggers.inline = true := by
        intro f isEdge source target
        obtain ⟨_, other, isOther, within⟩ := anchored f isEdge
        rw [target, known] at isOther
        cases isOther
        exact within.createsGroup (creates f isEdge source target) hasGroup
      refine .inr ⟨(lost e listed rfl rfl).2.2.2, hasGroup, ?_⟩
      intro f isEdge source target
      obtain ⟨isolated, notInline, _⟩ := lost f isEdge source target
      exact ⟨isolated, notInline⟩

end Leading

end Inscription

/-- Dependencies between roots, where bundling into an empty graph succeeds. From a bundle of the
root that has the dependency, the graph leads to the group of its target or to the main bundle of
its target, unless the one root only isolates the other, which is inline besides and has no
group. -/
theorem written_edges_of_roots (config : Config) (g : AssetGraph)
    (success : (Bundler.bundle config g .empty).2.result = .ok ()) :
    ∃ build, (Bundler.build config g).result = .ok build ∧
      ∀ p ∈ build.plans, ∀ e ∈ p.edges, ∃ root, p.root? e.target = some root ∧
        (p.LeadsTo (.ofGraph g) config (Bundler.bundle config g .empty).1 e.source e.target root ∨
          p.IsolatesInline e.source e.target root) := by
  obtain ⟨build, ss, built, plans, keyed, stands, edges⟩ := Bundler.bundle_spec success
  obtain ⟨_, planned⟩ := Bundler.plans_of_build built
  refine ⟨build, built, ?_⟩
  intro p isPlan e listed
  obtain ⟨entries, success⟩ := planned p isPlan
  obtain ⟨anchored, rooted⟩ :=
    Plan.anchored_and_rooted_of_planTarget Index.resolvesInside_ofGraph success
  obtain ⟨_, root, known, _⟩ := anchored e listed
  rw [← plans] at isPlan
  obtain ⟨s, member, rfl⟩ := List.mem_map.1 isPlan
  have asked (e : Edge) (asks : s.Asks e) (apart : e.source ≠ e.target) :=
    (edges e).2 ⟨⟨s, member, asks⟩, apart⟩
  exact ⟨root, known,
    (stands s member).leadsTo_or_isolatesInline keyed asked anchored rooted listed known⟩

/-- A page that is loaded lazily isolates a part, which the entry has inline. -/
def inlineForEntry : AssetGraph :=
  { nodes := [.root, .dependency { id := "entry", specifier := "index", isEntry := true },
      .asset { id := "index" },
      .dependency { id := "load page", specifier := "page", priority := .lazy },
      .asset { id := "page" },
      .dependency { id := "index to part", specifier := "part", behavior := some .inline },
      .asset { id := "part" },
      .dependency { id := "page to part", specifier := "part", behavior := some .isolated }]
    edges := [(0, 1), (1, 2), (2, 3), (3, 4), (2, 5), (5, 6), (4, 7), (7, 6)] }

theorem inlineForEntry_edge :
    (Bundler.bundle {} inlineForEntry .empty).2.result = .ok () ∧
      ∃ build ∈ (Bundler.build {} inlineForEntry).result.toOption, ∃ p ∈ build.plans,
        ∃ e ∈ p.edges, e.source = 1 ∧ e.target = 2 := by
  decide +kernel

theorem inlineForEntry_origins :
    ∀ build ∈ (Bundler.build {} inlineForEntry).result.toOption, ∀ p ∈ build.plans,
      (p.plannedBundles (.ofGraph inlineForEntry) {}).map Prod.fst =
        [.bucket 0 .js, .bucket 1 .js, .bucket 2 .js] := by
  decide +kernel

theorem inlineForEntry_page :
    ∀ build ∈ (Bundler.build {} inlineForEntry).result.toOption, ∀ p ∈ build.plans,
      ∀ page ∈ p.plannedBundles (.ofGraph inlineForEntry) {}, page.1 = .bucket 1 .js →
      ∀ b ∈ page.2.toOption,
        (Bundler.bundle {} inlineForEntry .empty).1.asyncGroups b.id = [] ∧
        (Bundler.bundle {} inlineForEntry .empty).1.referencedBundles b.id = [] ∧
        ∀ part ∈ p.plannedBundles (.ofGraph inlineForEntry) {}, part.1 = .bucket 2 .js →
          ∀ main ∈ part.2.toOption, main.id ≠ b.id := by
  decide +kernel

/-- Nothing leads from the page to the part. -/
theorem inlineForEntry_lost :
    (Bundler.bundle {} inlineForEntry .empty).2.result = .ok () ∧
      ∃ build, (Bundler.build {} inlineForEntry).result = .ok build ∧ ∃ p ∈ build.plans,
      ∃ e ∈ p.edges, ∀ root, ¬p.LeadsTo (.ofGraph inlineForEntry) {}
        (Bundler.bundle {} inlineForEntry .empty).1 e.source e.target root := by
  obtain ⟨success, build, built, p, isPlan, e, listed, isPage, isPart⟩ := inlineForEntry_edge
  have typed {origin : BundleOrigin} {id : String}
      (writes : p.WritesAs (.ofGraph inlineForEntry) {} origin id) :
      origin ∈ [.bucket 0 .js, .bucket 1 .js, .bucket 2 .js] := by
    obtain ⟨b, planned, _⟩ := writes
    rw [← inlineForEntry_origins build built p isPlan]
    exact List.mem_map_of_mem planned
  refine ⟨success, build, mem_toOption_iff.1 built, p, isPlan, e, listed, ?_⟩
  rintro root ⟨fileType, id, writes, leads⟩
  rw [isPage] at writes
  rw [isPart] at leads
  have js : fileType = .js := by simpa using typed writes
  rw [js] at writes
  obtain ⟨b, planned, rfl⟩ := writes
  obtain ⟨noGroup, noReference, apart⟩ :=
    inlineForEntry_page build built p isPlan _ planned rfl b rfl
  rcases leads with ⟨group, listed, _⟩ | ⟨main, writesMain, same | ⟨c, listed, _⟩⟩
  · rw [noGroup] at listed
    cases listed
  · have mainJs : p.bucketType 2 root.fileType = .js := by simpa using typed writesMain
    rw [mainJs] at writesMain
    obtain ⟨d, plannedMain, rfl⟩ := writesMain
    exact apart _ plannedMain rfl d rfl same
  · rw [noReference] at listed
    cases listed

theorem inlineForEntry_not_written :
    (Bundler.bundle {} inlineForEntry .empty).2.result = .ok () ∧
      ∃ build, (Bundler.build {} inlineForEntry).result = .ok build ∧
        ¬∀ p ∈ build.plans, ∀ e ∈ p.edges, ∃ root, p.root? e.target = some root ∧
          p.LeadsTo (.ofGraph inlineForEntry) {} (Bundler.bundle {} inlineForEntry .empty).1
            e.source e.target root := by
  obtain ⟨success, build, built, p, isPlan, e, listed, lost⟩ := inlineForEntry_lost
  refine ⟨success, build, built, ?_⟩
  intro written
  obtain ⟨root, _, leads⟩ := written p isPlan e listed
  exact lost root leads

theorem inlineForEntry_isolates :
    (Bundler.bundle {} inlineForEntry .empty).2.result = .ok () ∧
      ∃ build, (Bundler.build {} inlineForEntry).result = .ok build ∧ ∃ p ∈ build.plans,
      ∃ e ∈ p.edges, ∃ root, p.root? e.target = some root ∧
        p.IsolatesInline e.source e.target root := by
  obtain ⟨success, build, built, p, isPlan, e, listed, lost⟩ := inlineForEntry_lost
  obtain ⟨other, sameBuild, written⟩ := written_edges_of_roots {} inlineForEntry success
  cases built.symm.trans sameBuild
  obtain ⟨root, known, leads⟩ := written p isPlan e listed
  exact ⟨success, build, built, p, isPlan, e, listed, root, known, leads.resolve_left (lost root)⟩

end CodeSplit
