import CodeSplit.Proofs.BundleStore
import CodeSplit.Proofs.Membership
import CodeSplit.Proofs.TargetPasses

/-!
What writing plans leaves in a bundle graph. Every bundle and every group of a plan has a node,
which its key leads to, and the edges of the graph are exactly those that the plans ask for, apart
from edges that would lead back to their start.
-/
namespace CodeSplit

open BundleGraph Digest

/-- The bundle is of this type and holds exactly these assets. -/
def Bundle.Holds (b : Bundle) (i : Index) (fileType : FileType) (assets : KeySet AssetKey) : Prop :=
  b.fileType = fileType ∧ i.idsOf assets = .ok b.assetIds

namespace Plan

variable {p : Plan} {i : Index} {config : Config} {root : AssetKey} {fileType : FileType}

/-- The id of the group of a root. -/
def groupId (p : Plan) (root : Root) : String := "bundle_group:" ++ p.target.name ++ root.assetId

theorem isGroupId_groupId (p : Plan) (root : Root) : IsGroupId (p.groupId root) :=
  ⟨p.target.name ++ root.assetId, String.append_assoc⟩

/-- A bundle of this origin is written, and has this id. -/
def WritesAs (p : Plan) (i : Index) (config : Config) (origin : BundleOrigin) (id : String) :
    Prop :=
  ∃ bundle, (origin, .ok bundle) ∈ p.plannedBundles i config ∧ bundle.id = id

theorem isDigest_ofText (text : String) : IsDigest (ofText text) := ⟨_, rfl⟩

theorem isDigest_bundleId (ids : List String) (fileType : FileType) (distDir : Path) :
    IsDigest (BundleName.bundleId ids fileType distDir) := by
  rw [BundleName.bundleId]
  exact isDigest_ofText _

theorem isDigest_manualBundleId (name : String) (fileType : FileType) (distDir : Path) :
    IsDigest (BundleName.manualBundleId name fileType distDir) := by
  rw [BundleName.manualBundleId]
  exact isDigest_ofText _

/-- The bundle of a bucket holds what is in the bucket, and behaves as its root does. The root
enters by the bundle of its own type. -/
theorem bucketBundle_ok {r : Root} {assets : KeySet AssetKey} {b : Bundle}
    (success : p.bucketBundle i config root r fileType assets = .ok b) :
    b.id = BundleName.bundleId b.assetIds fileType p.target.distDir ∧
      b.Holds i fileType assets ∧ b.behavior = r.behavior ∧
      b.entryAssetIds = if fileType = p.bucketType root r.fileType then [r.assetId] else [] := by
  unfold bucketBundle at success
  obtain ⟨_, _, success⟩ := bind_eq_ok_iff.1 success
  obtain ⟨ids, named, success⟩ := bind_eq_ok_iff.1 success
  obtain ⟨_, _, success⟩ := bind_eq_ok_iff.1 success
  simp only [decide_eq_true_eq] at success
  split at success
  · obtain ⟨_, _, success⟩ := bind_eq_ok_iff.1 success
    rw [← Except.ok.inj success]
    exact ⟨rfl, ⟨rfl, named⟩, rfl, rfl⟩
  · obtain ⟨_, _, success⟩ := bind_eq_ok_iff.1 success
    rw [← Except.ok.inj success]
    exact ⟨rfl, ⟨rfl, named⟩, rfl, rfl⟩

theorem sharedBundle_ok {shared : SharedBundle} {b : Bundle}
    (success : p.sharedBundle i shared = .ok b) :
    b.id = BundleName.bundleId b.assetIds shared.fileType p.target.distDir ∧
      b.Holds i shared.fileType shared.assets ∧ b.behavior = none ∧ b.entryAssetIds = [] := by
  unfold sharedBundle at success
  split at success
  · cases success
  · obtain ⟨ids, named, success⟩ := bind_eq_ok_iff.1 success
    obtain ⟨_, _, success⟩ := bind_eq_ok_iff.1 success
    obtain ⟨_, _, success⟩ := bind_eq_ok_iff.1 success
    rw [← Except.ok.inj success]
    exact ⟨rfl, ⟨rfl, named⟩, rfl, rfl⟩

theorem manualBundle_ok {key : ManualKey} {manual : ManualBundle} {b : Bundle}
    (success : p.manualBundle i key manual = .ok b) :
    b.id = BundleName.manualBundleId key.qualifiedName key.fileType p.target.distDir ∧
      b.Holds i key.fileType manual.assets ∧ b.behavior = none ∧ b.entryAssetIds = [] := by
  unfold manualBundle at success
  obtain ⟨_, _, success⟩ := bind_eq_ok_iff.1 success
  obtain ⟨_, _, success⟩ := bind_eq_ok_iff.1 success
  obtain ⟨_, _, success⟩ := bind_eq_ok_iff.1 success
  obtain ⟨_, named, success⟩ := bind_eq_ok_iff.1 success
  rw [← Except.ok.inj success]
  exact ⟨rfl, ⟨rfl, named⟩, rfl, rfl⟩

/-- The bundles of roots among those to write. -/
theorem mem_plannedBundles_bucket {planned : Except Fault Bundle} :
    (BundleOrigin.bucket root fileType, planned) ∈ p.plannedBundles i config ↔
      ∃ r assets, p.root? root = some r ∧ (p.buckets root).get? fileType = some assets ∧
        assets.isEmpty = false ∧ planned = p.bucketBundle i config root r fileType assets := by
  simp only [plannedBundles, List.mem_append, List.mem_flatMap, List.mem_map, List.mem_filter,
    Prod.mk.injEq, reduceCtorEq, false_and, and_false, exists_false, or_false,
    BundleOrigin.bucket.injEq]
  constructor
  · rintro ⟨⟨key, r⟩, entry, ⟨type, assets⟩, ⟨placed, some⟩, ⟨rfl, rfl⟩, rfl⟩
    exact ⟨r, assets, KeyMap.get?_eq_some_iff.2 entry, KeyMap.get?_eq_some_iff.2 placed,
      by simpa using some, rfl⟩
  · rintro ⟨r, assets, known, placed, some, rfl⟩
    exact ⟨(root, r), KeyMap.get?_eq_some_iff.1 known, (fileType, assets),
      ⟨KeyMap.get?_eq_some_iff.1 placed, by simpa using some⟩, ⟨rfl, rfl⟩, rfl⟩

/-- The shared and manual bundles among those to write. -/
theorem mem_plannedBundles_loaded {consumers : KeySet AssetKey} {planned : Except Fault Bundle} :
    (BundleOrigin.loaded fileType consumers, planned) ∈ p.plannedBundles i config ↔
      (∃ b ∈ p.liveSharedBundles, b.fileType = fileType ∧ b.consumers = consumers ∧
        planned = p.sharedBundle i b) ∨
      ∃ key b, p.manualBundles.get? key = some b ∧ key.fileType = fileType ∧
        b.consumers = consumers ∧ planned = p.manualBundle i key b := by
  simp only [plannedBundles, List.mem_append, List.mem_flatMap, List.mem_map, Prod.mk.injEq,
    reduceCtorEq, false_and, and_false, exists_false, false_or, BundleOrigin.loaded.injEq,
    Prod.exists, KeyMap.get?_eq_some_iff, and_assoc, eq_comm (a := planned)]

theorem isDigest_of_planned {origin : BundleOrigin} {b : Bundle}
    (listed : (origin, .ok b) ∈ p.plannedBundles i config) : IsDigest b.id := by
  cases origin with
  | bucket root fileType =>
    obtain ⟨_, _, _, _, _, made⟩ := mem_plannedBundles_bucket.1 listed
    rw [(bucketBundle_ok made.symm).1]
    exact isDigest_bundleId _ _ _
  | loaded fileType consumers =>
    rcases mem_plannedBundles_loaded.1 listed with ⟨_, _, _, _, made⟩ | ⟨_, _, _, _, _, made⟩
    · rw [(sharedBundle_ok made.symm).1]
      exact isDigest_bundleId _ _ _
    · rw [(manualBundle_ok made.symm).1]
      exact isDigest_manualBundleId _ _ _

end Plan

namespace WrittenPlan

variable {w : WrittenPlan} {group root : AssetKey} {n : NodeId} {fileType : FileType}

/-- The group loads the bundle: it is of a member of the group, or some member loads it. -/
def Loads (w : WrittenPlan) (group : AssetKey) (b : WrittenBundle) : Prop :=
  match b.origin with
  | .bucket root _ => root ∈ w.plan.members group
  | .loaded _ consumers => ∃ c ∈ consumers, c ∈ w.plan.members group

theorem mem_bundlesOf {roots : KeySet AssetKey} {b : WrittenBundle} :
    b ∈ w.bundlesOf roots ↔
      b ∈ w.bundles ∧ ∃ root fileType, b.origin = .bucket root fileType ∧ root ∈ roots := by
  unfold bundlesOf
  rw [List.mem_filter]
  refine and_congr_right fun _ => ?_
  cases b.origin with
  | bucket root fileType => simp
  | loaded fileType consumers => simp

theorem mem_loadedBy {roots : KeySet AssetKey} {b : WrittenBundle} :
    b ∈ w.loadedBy roots ↔ b ∈ w.bundles ∧ ∃ fileType consumers,
      b.origin = .loaded fileType consumers ∧ ∃ c ∈ consumers, c ∈ roots := by
  unfold loadedBy
  rw [List.mem_filter]
  refine and_congr_right fun _ => ?_
  cases b.origin with
  | bucket root fileType => simp
  | loaded fileType consumers => simp [KeySet.meets_iff]

theorem mem_sortedNodes {bundles : List WrittenBundle} :
    n ∈ sortedNodes bundles ↔ ∃ b ∈ bundles, b.node = n := by
  unfold sortedNodes
  simp only [List.mem_map, (perm_arrange _ _).mem_iff, exists_exists_and_eq_and]

theorem origin_of_bucketNode? (found : w.bucketNode? root fileType = some n) :
    ∃ b ∈ w.bundles, b.origin = .bucket root (w.plan.bucketType root fileType) ∧ b.node = n := by
  unfold bucketNode? at found
  obtain ⟨b, isFirst, rfl⟩ := Option.map_eq_some_iff.1 found
  exact ⟨b, List.mem_of_find?_eq_some isFirst, by simpa using List.find?_some isFirst, rfl⟩

theorem exists_bucketNode? {b : WrittenBundle} (listed : b ∈ w.bundles)
    (origin : b.origin = .bucket root (w.plan.bucketType root fileType)) :
    ∃ n, w.bucketNode? root fileType = some n := by
  have some : (w.bundles.find? fun b =>
      decide (b.origin = .bucket root (w.plan.bucketType root fileType))).isSome = true :=
    List.find?_isSome.2 ⟨b, listed, decide_eq_true origin⟩
  obtain ⟨first, found⟩ := Option.isSome_iff_exists.1 some
  exact ⟨first.node, Option.map_eq_some_iff.2 ⟨first, found, rfl⟩⟩

theorem origin_of_mainNode? (found : w.mainNode? root = some n) :
    ∃ r, w.plan.root? root = some r ∧ ∃ b ∈ w.bundles,
      b.origin = .bucket root (w.plan.bucketType root r.fileType) ∧ b.node = n := by
  obtain ⟨r, known, found⟩ := Option.bind_eq_some_iff.1 found
  exact ⟨r, known, origin_of_bucketNode? found⟩

/-- Something is loaded from a bundle of the root. -/
theorem origin_of_sourceNode? (found : w.sourceNode? root fileType = some n) :
    ∃ b ∈ w.bundles, (∃ packed, b.origin = .bucket root packed) ∧ b.node = n := by
  unfold sourceNode? at found
  rcases (Option.orElse_eq_some _ _ _).1 found with typed | ⟨_, main⟩
  · obtain ⟨b, listed, origin, same⟩ := origin_of_bucketNode? typed
    exact ⟨b, listed, ⟨_, origin⟩, same⟩
  · obtain ⟨_, _, b, listed, origin, same⟩ := origin_of_mainNode? main
    exact ⟨b, listed, ⟨_, origin⟩, same⟩

/-- The nodes of a group are those of the bundles that it loads, if its root is a member. -/
theorem mem_groupNodes (own : group ∈ w.plan.members group) :
    n ∈ w.groupNodes group ↔ ∃ b ∈ w.bundles, b.node = n ∧ w.Loads group b := by
  unfold groupNodes
  simp only [List.mem_append, mem_sortedNodes, mem_loadedBy, mem_bundlesOf, List.mem_filter,
    decide_eq_true_eq, Option.mem_toList]
  constructor
  · rintro (⟨⟨b, ⟨listed, type, consumers, origin, loads⟩ | ⟨listed, root, type, origin, member⟩,
      same⟩ | ⟨b, ⟨⟨listed, root, type, origin, member⟩, _⟩, same⟩⟩ | main)
    · exact ⟨b, listed, same, by rw [Loads, origin]; exact loads⟩
    · exact ⟨b, listed, same, by rw [Loads, origin]; exact KeySet.mem_union.2 (.inr member)⟩
    · exact ⟨b, listed, same, by rw [Loads, origin]; exact KeySet.mem_union.2 (.inl member)⟩
    · obtain ⟨r, _, b, listed, origin, same⟩ := origin_of_mainNode? main
      exact ⟨b, listed, same, by rw [Loads, origin]; exact own⟩
  · rintro ⟨b, listed, same, loads⟩
    unfold Loads at loads
    cases origin : b.origin with
    | loaded type consumers =>
      rw [origin] at loads
      exact .inl (.inl ⟨b, .inl ⟨listed, type, consumers, origin, loads⟩, same⟩)
    | bucket root type =>
      rw [origin] at loads
      rcases KeySet.mem_union.1 loads with member | member
      · by_cases main : some b.node = w.mainNode? group
        · exact .inr (main.symm.trans (congrArg some same))
        · exact .inl (.inr ⟨b, ⟨⟨listed, root, type, origin, member⟩, main⟩, same⟩)
      · exact .inl (.inl ⟨b, .inr ⟨listed, root, type, origin, member⟩, same⟩)

/-- Edges between bundles lead from a bundle of a root to a bundle that the root loads, or to a
bundle of a root that it reuses. -/
theorem loadEdges_cases {e : Edge} (listed : e ∈ w.loadEdges) :
    ∃ root type source, w.sourceNode? root type = some source ∧ ∃ b ∈ w.bundles,
      e = ⟨source, b.node, .references⟩ ∧
        ((∃ fileType consumers, b.origin = .loaded fileType consumers ∧ root ∈ consumers) ∨
          ∃ other fileType, b.origin = .bucket other fileType ∧ w.plan.Reuses root other) := by
  unfold loadEdges at listed
  rcases List.mem_append.1 listed with loads | reuses
  · obtain ⟨b, isBundle, loads⟩ := List.mem_flatMap.1 loads
    cases origin : b.origin with
    | bucket root fileType => simp [origin] at loads
    | loaded fileType consumers =>
      simp only [origin, List.mem_filterMap, Option.map_eq_some_iff] at loads
      obtain ⟨root, consumer, source, found, rfl⟩ := loads
      exact ⟨root, fileType, source, found, b, isBundle, rfl, .inl ⟨fileType, consumers, origin,
        consumer⟩⟩
  · obtain ⟨pair, isPair, reuses⟩ := List.mem_flatMap.1 reuses
    simp only [] at reuses
    split at reuses
    · cases reuses
    · rename_i source found
      obtain ⟨r, _, found⟩ := Option.bind_eq_some_iff.1 found
      obtain ⟨b, reused, rfl⟩ := List.mem_map.1 reuses
      obtain ⟨isBundle, other, fileType, origin, same⟩ := mem_bundlesOf.1 reused
      rw [KeySet.mem_singleton.1 same] at origin
      exact ⟨pair.1, r.fileType, source, found, b, isBundle, rfl, .inr ⟨pair.2, fileType, origin,
        isPair⟩⟩

/-- The edge for a dependency, if there is one. -/
theorem dependencyEdge?_cases {i : Index} {groups : KeyMap AssetKey NodeId} {link : BundleEdge}
    {e : Edge} (made : w.dependencyEdge? i groups link = .ok (some e)) :
    ∃ type source, w.sourceNode? link.source type = some source ∧
      ((link.triggers.createsGroup = true ∧ ∃ group, groups.get? link.target = some group ∧
          e = ⟨source, group, .async⟩) ∨
        (link.triggers.createsGroup = false ∧ ∃ target, w.mainNode? link.target = some target ∧
          e = ⟨source, target, .references⟩)) := by
  unfold dependencyEdge? at made
  obtain ⟨asset, _, made⟩ := bind_eq_ok_iff.1 made
  obtain ⟨source, found, made⟩ := Option.bind_eq_some_iff.1 (Except.ok.inj made)
  refine ⟨asset.fileType, source, found, ?_⟩
  split at made
  · rename_i creates
    obtain ⟨group, isGroup, rfl⟩ := Option.map_eq_some_iff.1 made
    exact .inl ⟨creates, group, isGroup, rfl⟩
  · rename_i joint
    obtain ⟨target, isMain, rfl⟩ := Option.map_eq_some_iff.1 made
    exact .inr ⟨Bool.eq_false_iff.2 joint, target, isMain, rfl⟩

theorem mem_dependencyEdges {i : Index} {groups : KeyMap AssetKey NodeId} {links : List Edge}
    (success : w.dependencyEdges i groups = .ok links) {e : Edge} :
    e ∈ links ↔ ∃ link ∈ w.plan.edges, w.dependencyEdge? i groups link = .ok (some e) := by
  unfold dependencyEdges at success
  obtain ⟨found, results, success⟩ := bind_eq_ok_iff.1 success
  obtain rfl := Except.ok.inj success
  simp only [List.mem_filterMap, id, exists_eq_right]
  constructor
  · intro listed
    exact exists_of_mem_result results listed
  · rintro ⟨link, listed, made⟩
    obtain ⟨edge, member, result⟩ := exists_of_mem_mapM results listed
    cases made.symm.trans result
    exact member

/-- The edges of the group of a root, which has some node. -/
def groupEdges (w : WrittenPlan) (key : AssetKey) (root : Root) (node : NodeId) : List Edge :=
  (if root.triggers.entry then [⟨rootNode, node, .bundle⟩] else []) ++
    (w.groupNodes key).map fun n => ⟨node, n, .bundle⟩

end WrittenPlan

section Writing

variable {g next : BundleGraph} {w : WrittenPlan} {i : Index} {config : Config}

theorem addBundles_spec {planned : List (BundleOrigin × Except Fault Bundle)}
    {written : List WrittenBundle} (keyed : g.WellKeyed)
    (digests : ∀ origin b, (origin, .ok b) ∈ planned → IsDigest b.id)
    (success : addBundles planned g = (next, .ok written)) :
    Grows g next ∧ next.edges = g.edges ∧
      (∀ b ∈ written, ∃ bundle, (b.origin, .ok bundle) ∈ planned ∧ b.id = bundle.id ∧
        next.keys[b.node]? = some b.id) ∧
      ∀ entry ∈ planned, ∃ b ∈ written, b.origin = entry.1 := by
  induction planned generalizing g written with
  | nil =>
    cases success
    exact ⟨.refl keyed, rfl, fun b none => absurd none List.not_mem_nil,
      fun entry none => absurd none List.not_mem_nil⟩
  | cons entry rest ih =>
    obtain ⟨origin, planned⟩ := entry
    obtain ⟨bundle, middle, node, others, rfl, stored, result, rfl⟩ := addBundles_cons_ok success
    obtain ⟨grows, sameEdges, key⟩ :=
      addBundle_spec keyed (digests origin bundle List.mem_cons_self) stored
    obtain ⟨later, laterEdges, each, all⟩ := ih grows.keyed
      (fun origin b listed => digests origin b (List.mem_cons_of_mem _ listed)) result
    refine ⟨grows.trans later, laterEdges.trans sameEdges, ?_, ?_⟩
    · intro b listed
      rcases List.mem_cons.1 listed with rfl | listed
      · exact ⟨bundle, List.mem_cons_self, rfl, later.keeps key⟩
      · obtain ⟨bundle, planned, same⟩ := each b listed
        exact ⟨bundle, List.mem_cons_of_mem _ planned, same⟩
    · intro entry listed
      rcases List.mem_cons.1 listed with rfl | listed
      · exact ⟨_, List.mem_cons_self, rfl⟩
      · obtain ⟨b, listed, same⟩ := all entry listed
        exact ⟨b, List.mem_cons_of_mem _ listed, same⟩

theorem writeGroup_spec {key : AssetKey} {root : Root} {node : NodeId} (keyed : g.WellKeyed)
    (success : g.writeGroup w key root = (next, .ok node)) :
    Grows g next ∧ next.keys[node]? = some (w.plan.groupId root) ∧
      ∀ e, e ∈ next.edges ↔
        e ∈ g.edges ∨ (e ∈ w.groupEdges key root node ∧ e.source ≠ e.target) := by
  have isGroup : IsGroupId (w.groupOf root).id := w.plan.isGroupId_groupId root
  obtain ⟨grows, sameEdges, key⟩ := addGroup_spec keyed isGroup
  unfold writeGroup at success
  simp only [] at success
  obtain ⟨rfl, single⟩ := Prod.mk.inj success
  rcases ite_eq_iff.1 single with ⟨_, same⟩ | ⟨_, same⟩
  · cases same
    refine ⟨grows.linkAll _, (keys_linkAll _).symm ▸ key, ?_⟩
    intro e
    rw [mem_linkAll, sameEdges]
    rfl
  · cases same

/-- The edges of the groups with nodes. -/
def WrittenPlan.GroupEdge (w : WrittenPlan) (groups : KeyMap AssetKey NodeId) (e : Edge) : Prop :=
  ∃ key node root, groups.get? key = some node ∧ w.plan.root? key = some root ∧
    e ∈ w.groupEdges key root node

/-- What writing the first of some groups and then the others does. -/
theorem writeGroups_cons_ok {key : AssetKey} {roots : List AssetKey}
    {groups : KeyMap AssetKey NodeId}
    (success : writeGroups w (key :: roots) g = (next, .ok groups)) :
    ∃ root middle node others, w.plan.root? key = some root ∧
      g.writeGroup w key root = (middle, .ok node) ∧
      writeGroups w roots middle = (next, .ok others) ∧ groups = others.insert key node := by
  rw [writeGroups] at success
  split at success
  · cases success
  · rename_i root known
    split at success
    · cases success
    · rename_i middle node made
      cases result : writeGroups w roots middle with
      | mk final others =>
        rw [result] at success
        obtain ⟨rfl, wrote⟩ := Prod.mk.inj success
        obtain ⟨others, rfl, rfl⟩ := map_eq_ok_iff.1 wrote
        exact ⟨root, middle, node, others, known, made, result, rfl⟩

/-- One more group adds its edges. -/
theorem WrittenPlan.groupEdge_insert {groups : KeyMap AssetKey NodeId} {key : AssetKey}
    {root : Root} {node : NodeId} (absent : groups.get? key = none)
    (known : w.plan.root? key = some root) {e : Edge} :
    w.GroupEdge (groups.insert key node) e ↔
      e ∈ w.groupEdges key root node ∨ w.GroupEdge groups e := by
  unfold WrittenPlan.GroupEdge
  constructor
  · rintro ⟨other, otherNode, otherRoot, found, isRoot, listed⟩
    rw [KeyMap.get?_insert] at found
    split at found
    · rename_i same
      cases same
      cases found
      cases known.symm.trans isRoot
      exact .inl listed
    · exact .inr ⟨other, otherNode, otherRoot, found, isRoot, listed⟩
  · rintro (listed | ⟨other, otherNode, otherRoot, found, isRoot, listed⟩)
    · exact ⟨key, node, root, by rw [KeyMap.get?_insert, if_pos rfl], known, listed⟩
    · refine ⟨other, otherNode, otherRoot, ?_, isRoot, listed⟩
      rw [KeyMap.get?_insert, if_neg]
      · exact found
      · rintro rfl
        cases absent.symm.trans found

theorem writeGroups_spec {roots : List AssetKey} {groups : KeyMap AssetKey NodeId}
    (keyed : g.WellKeyed) (distinct : roots.Nodup)
    (success : writeGroups w roots g = (next, .ok groups)) :
    Grows g next ∧
      (∀ key node, groups.get? key = some node → key ∈ roots ∧
        ∃ root, w.plan.root? key = some root ∧ next.keys[node]? = some (w.plan.groupId root)) ∧
      (∀ key ∈ roots, ∃ node, groups.get? key = some node) ∧
      ∀ e, e ∈ next.edges ↔ e ∈ g.edges ∨ (w.GroupEdge groups e ∧ e.source ≠ e.target) := by
  induction roots generalizing g groups with
  | nil =>
    cases success
    refine ⟨.refl keyed, ?_, ?_, ?_⟩
    · intro key node none
      cases none
    · intro key none
      cases none
    · intro e
      simp [WrittenPlan.GroupEdge]
  | cons key roots ih =>
    obtain ⟨fresh, distinct⟩ := List.nodup_cons.1 distinct
    obtain ⟨root, middle, node, others, known, made, result, rfl⟩ := writeGroups_cons_ok success
    obtain ⟨grows, isGroup, edges⟩ := writeGroup_spec keyed made
    obtain ⟨later, each, all, laterEdges⟩ := ih grows.keyed distinct result
    -- the root has no other group
    have absent : others.get? key = none := by
      cases found : others.get? key with
      | none => rfl
      | some node => exact absurd (each key node found).1 fresh
    refine ⟨grows.trans later, ?_, ?_, ?_⟩
    · intro other otherNode found
      rw [KeyMap.get?_insert] at found
      split at found
      · rename_i same
        cases same
        cases found
        exact ⟨List.mem_cons_self, root, known, later.keeps isGroup⟩
      · obtain ⟨listed, rest⟩ := each other otherNode found
        exact ⟨List.mem_cons_of_mem _ listed, rest⟩
    · intro other listed
      rw [KeyMap.get?_insert]
      split
      · exact ⟨node, rfl⟩
      · rename_i different
        exact all other ((List.mem_cons.1 listed).resolve_left (Ne.symm different))
    · intro e
      rw [laterEdges, edges, WrittenPlan.groupEdge_insert absent known, or_assoc, or_and_right]

end Writing

/-- A plan as it stands in a graph: its bundles, the nodes of its groups, and the edges for the
dependencies between its roots. -/
structure Inscription where
  written : WrittenPlan
  groups : KeyMap AssetKey NodeId
  links : List Edge

namespace Inscription

variable {g next : BundleGraph} {i : Index} {config : Config} {s : Inscription}

/-- The edges that the plan asks for. -/
def Asks (s : Inscription) (e : Edge) : Prop :=
  s.written.GroupEdge s.groups e ∨ e ∈ s.written.loadEdges ∨ e ∈ s.links

/-- The nodes that the plan has are nodes of the graph for what it planned, and nothing that it
planned is left out. -/
structure StandsIn (s : Inscription) (i : Index) (config : Config) (g : BundleGraph) : Prop where
  bundles : ∀ b ∈ s.written.bundles,
    s.written.plan.WritesAs i config b.origin b.id ∧ g.keys[b.node]? = some b.id
  allBundles : ∀ entry ∈ s.written.plan.plannedBundles i config,
    ∃ b ∈ s.written.bundles, b.origin = entry.1
  groups : ∀ key node, s.groups.get? key = some node → key ∈ s.written.plan.groupRoots ∧
    ∃ root, s.written.plan.root? key = some root ∧
      g.keys[node]? = some (s.written.plan.groupId root)
  allGroups : ∀ key ∈ s.written.plan.groupRoots, ∃ node, s.groups.get? key = some node
  links : s.written.dependencyEdges i s.groups = .ok s.links

theorem StandsIn.keeps (stands : s.StandsIn i config g) (grows : Grows g next) :
    s.StandsIn i config next := by
  refine ⟨?_, stands.allBundles, ?_, stands.allGroups, stands.links⟩
  · intro b listed
    obtain ⟨writes, key⟩ := stands.bundles b listed
    exact ⟨writes, grows.keeps key⟩
  · intro key node found
    obtain ⟨listed, root, known, isGroup⟩ := stands.groups key node found
    exact ⟨listed, root, known, grows.keeps isGroup⟩

end Inscription

section Writing

variable {g next : BundleGraph} {i : Index} {config : Config}

/-- The steps of writing a plan: its bundles, its groups, and the edges between bundles. -/
structure Inscription.WritesIn (s : Inscription) (i : Index) (config : Config)
    (g filled grouped next : BundleGraph) : Prop where
  bundles : addBundles (s.written.plan.plannedBundles i config) g = (filled, .ok s.written.bundles)
  groups : writeGroups s.written s.written.plan.groupRoots filled = (grouped, .ok s.groups)
  links : s.written.dependencyEdges i s.groups = .ok s.links
  last : next = (grouped.linkAll s.written.loadEdges).linkAll s.links

/-- Writing a plan succeeds if every step does. -/
theorem writePlan_ok_iff {p : Plan} : (g.writePlan i config p).2.result = .ok () ↔
    ∃ (s : Inscription) (filled grouped : BundleGraph), s.written.plan = p ∧
      s.WritesIn i config g filled grouped (g.writePlan i config p).1 := by
  constructor
  · intro ok
    unfold writePlan at ok ⊢
    rcases wrote : addBundles (p.plannedBundles i config) g with ⟨filled, fault | bundles⟩
    · simp only [wrote] at ok
      cases ok
    · simp only [wrote] at ok ⊢
      rcases made : writeGroups ⟨p, bundles⟩ p.groupRoots filled with ⟨grouped, fault | groups⟩
      · simp only [made] at ok
        cases ok
      · simp only [made] at ok ⊢
        cases linked : WrittenPlan.dependencyEdges ⟨p, bundles⟩ i groups with
        | error fault =>
          simp only [linked] at ok
          cases ok
        | ok links =>
          exact ⟨⟨⟨p, bundles⟩, groups, links⟩, filled, grouped, rfl, wrote, made, linked, rfl⟩
  · rintro ⟨s, filled, grouped, rfl, bundles, groups, links, _⟩
    unfold writePlan
    simp only [bundles, groups, links]
    rfl

/-- What is written stands in the graph, which has the edges that the plan asks for. -/
theorem Inscription.WritesIn.standsIn {s : Inscription} {filled grouped : BundleGraph}
    (writes : s.WritesIn i config g filled grouped next) (keyed : g.WellKeyed) :
    Grows g next ∧ s.StandsIn i config next ∧
      ∀ e, e ∈ next.edges ↔ e ∈ g.edges ∨ (s.Asks e ∧ e.source ≠ e.target) := by
  obtain ⟨fills, sameEdges, each, all⟩ :=
    addBundles_spec keyed (fun _ _ listed => Plan.isDigest_of_planned listed) writes.bundles
  obtain ⟨grows, isGroup, allGroups, edges⟩ :=
    writeGroups_spec fills.keyed Plan.nodup_groupRoots writes.groups
  have later : Grows grouped next := by
    rw [writes.last]
    exact ((Grows.refl grows.keyed).linkAll _).linkAll s.links
  refine ⟨(fills.trans grows).trans later, ⟨?_, all, ?_, allGroups, writes.links⟩, ?_⟩
  · intro b listed
    obtain ⟨bundle, planned, same, key⟩ := each b listed
    exact ⟨⟨bundle, planned, same.symm⟩, later.keeps (grows.keeps key)⟩
  · intro key node found
    obtain ⟨listed, root, known, key⟩ := isGroup key node found
    exact ⟨listed, root, known, later.keeps key⟩
  · intro e
    rw [writes.last, mem_linkAll, mem_linkAll, edges, sameEdges]
    unfold Inscription.Asks
    tauto

theorem writePlan_spec {p : Plan} {report : Report Unit} (keyed : g.WellKeyed)
    (success : g.writePlan i config p = (next, report)) (ok : report.result = .ok ()) :
    ∃ s : Inscription, s.written.plan = p ∧ Grows g next ∧ s.StandsIn i config next ∧
      ∀ e, e ∈ next.edges ↔ e ∈ g.edges ∨ (s.Asks e ∧ e.source ≠ e.target) := by
  have wrote : (g.writePlan i config p).2.result = .ok () := by rw [success, ok]
  obtain ⟨s, filled, grouped, same, writes⟩ := writePlan_ok_iff.1 wrote
  rw [success] at writes
  exact ⟨s, same, writes.standsIn keyed⟩

/-- All plans stand in the graph in the end, and its edges are theirs. -/
theorem writePlans_spec {plans : List Plan} {report : Report Unit} (keyed : g.WellKeyed)
    (success : Bundler.writePlans i config plans g = (next, report))
    (ok : report.result = .ok ()) :
    ∃ ss : List Inscription, ss.map (·.written.plan) = plans ∧ Grows g next ∧
      (∀ s ∈ ss, s.StandsIn i config next) ∧
      ∀ e, e ∈ next.edges ↔ e ∈ g.edges ∨ ((∃ s ∈ ss, s.Asks e) ∧ e.source ≠ e.target) := by
  induction plans generalizing g report with
  | nil =>
    cases success
    refine ⟨[], rfl, .refl keyed, fun s none => absurd none List.not_mem_nil, ?_⟩
    simp
  | cons p plans ih =>
    rw [Bundler.writePlans] at success
    cases first : g.writePlan i config p with
    | mk middle firstReport =>
      rw [first] at success
      simp only [] at success
      split at success
      · rename_i fault failed
        cases success
        cases failed.symm.trans ok
      · rename_i wrote
        cases rest : Bundler.writePlans i config plans middle with
        | mk final restReport =>
          rw [rest] at success
          obtain ⟨rfl, rfl⟩ := Prod.mk.inj success
          obtain ⟨_, _, restOk⟩ := Report.result_bind_eq_ok.1 ok
          obtain ⟨s, rfl, grows, stands, edges⟩ := writePlan_spec keyed first wrote
          obtain ⟨ss, same, later, allStand, laterEdges⟩ := ih grows.keyed rest restOk
          refine ⟨s :: ss, by rw [List.map_cons, same], grows.trans later, ?_, ?_⟩
          · intro other listed
            rcases List.mem_cons.1 listed with rfl | listed
            · exact stands.keeps later
            · exact allStand other listed
          · intro e
            rw [laterEdges, edges, List.exists_mem_cons_iff]
            tauto

end Writing

namespace Bundler

variable {config : Config} {g : AssetGraph}

/-- Every plan of a build is the plan of some target. -/
theorem plans_of_build {b : Build} (success : (build config g).result = .ok b) :
    b.index = .ofGraph g ∧ ∀ p ∈ b.plans, ∃ entries,
      ((Index.ofGraph g).planTarget config entries).result = .ok p := by
  obtain ⟨_, plans, _, found, rfl⟩ := build_eq_ok_iff.1 success
  refine ⟨rfl, ?_⟩
  intro p listed
  obtain ⟨entry, _, made⟩ := exists_of_mem_result found listed
  exact ⟨entry.2, Report.result_mapFault.1 made⟩

/-- Bundling into an empty graph writes the plans of a build. -/
theorem bundle_spec (success : (bundle config g .empty).2.result = .ok ()) :
    ∃ (b : Build) (ss : List Inscription), (build config g).result = .ok b ∧
      ss.map (·.written.plan) = b.plans ∧
      (bundle config g .empty).1.WellKeyed ∧
      (∀ s ∈ ss, s.StandsIn (.ofGraph g) config (bundle config g .empty).1) ∧
      ∀ e, e ∈ (bundle config g .empty).1.edges ↔
        (∃ s ∈ ss, s.Asks e) ∧ e.source ≠ e.target := by
  unfold bundle at success ⊢
  simp only [] at success ⊢
  cases built : (build config g).result with
  | error fault =>
    rw [built] at success
    cases success
  | ok b =>
    rw [built] at success
    obtain ⟨sameIndex, _⟩ := plans_of_build built
    cases wrote : writePlans b.index config b.plans .empty with
    | mk written report =>
      simp only [wrote] at success ⊢
      cases ok : report.result with
      | error fault =>
        rw [ok] at success
        cases success
      | ok =>
        obtain ⟨ss, plans, grows, stands, edges⟩ := writePlans_spec wellKeyed_empty wrote ok
        rw [sameIndex] at stands
        refine ⟨b, ss, rfl, plans, ⟨grows.keyed.distinct, grows.keyed.root, grows.keyed.named⟩,
          ?_, ?_⟩
        · intro s listed
          obtain ⟨bundles, all, groups, allGroups, links⟩ := stands s listed
          exact ⟨bundles, all, groups, allGroups, links⟩
        · intro e
          refine (edges e).trans ?_
          simp [BundleGraph.empty]

end Bundler

end CodeSplit
