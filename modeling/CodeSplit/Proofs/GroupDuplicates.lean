import CodeSplit.Proofs.OutputBundles
import CodeSplit.Proofs.PlanTargets

/-!
Assets of shared bundles that are in other bundles too. While assets are placed, an asset that is
set aside to be shared is packed into entry-like roots only, since these load no shared bundles. So
no other root has an asset of a shared bundle in its own bundles, unless limiting gives it a copy.
-/
namespace CodeSplit

open BundleGraph

/-- Which asset has an id. -/
theorem Index.IdsDiffer.mem_of_mem_ids {i : Index} (differ : i.IdsDiffer) {x : AssetKey}
    {id : String} (named : i.idOf x = .ok id) {assets : KeySet AssetKey} {ids : List String}
    (listed : i.idsOf assets = .ok ids) (member : id ∈ ids) : x ∈ assets := by
  obtain ⟨y, has, namedToo⟩ := exists_of_mem_result listed member
  rw [differ x y id named namedToo]
  exact has

namespace Plan

variable {p q : Plan} {i : Index} {config : Config} {entries : List Entry} {m x : AssetKey}

theorem packages_packInto_iff {roots : List AssetKey} {fileType : FileType} {asset : AssetKey} :
    (p.packInto roots fileType asset).Packages m x ↔
      (m ∈ roots ∧ x = asset) ∨ p.Packages m x := by
  rw [packInto_eq_foldl, packages_foldl]
  simp

theorem not_loadsShared_of_direct (direct : p.packagesDirectly m = true) : ¬p.LoadsShared m := by
  intro loads
  rw [loadsShared_iff.2 loads] at direct
  cases direct

/-- No root that loads shared bundles packages an asset of one itself. -/
def SharesAlone (p : Plan) : Prop :=
  ∀ b ∈ p.sharedBundles, ∀ x ∈ b.assets, ∀ m, p.Packages m x → ¬p.LoadsShared m

end Plan

namespace Sharing

open Plan

variable {p q : Plan} {i : Index} {config : Config} {claimed : KeySet AssetKey} {s next : Sharing}

/-- While assets are considered, nothing has been done with those to come, and what is set aside is
packed into entry-like roots only. -/
structure Reserving (p : Plan) (i : Index) (claimed : KeySet AssetKey)
    (rest : List (AssetKey × KeySet AssetKey)) (s : Sharing) : Prop where
  considering : Considering p i claimed rest s
  untouched : ∀ c ∈ rest, ∀ m, ¬s.plan.Packages m c.1
  reserved : ∀ key, ∀ x ∈ s.provisional.setAt key, ∀ m, s.plan.Packages m x → ¬p.LoadsShared m

theorem Reserving.step {entry : AssetKey × KeySet AssetKey}
    {rest : List (AssetKey × KeySet AssetKey)} (reserving : Reserving p i claimed (entry :: rest) s)
    (success : consider i config claimed s entry = .ok next) : Reserving p i claimed rest next := by
  have considering := reserving.considering
  obtain ⟨fresh, _⟩ := List.pairwise_cons.1 considering.distinct
  -- only the asset that is considered is packed, so nothing changes for the others
  have coming {roots : List AssetKey} {fileType : FileType} (c : AssetKey × KeySet AssetKey)
      (member : c ∈ rest) (m : AssetKey) :
      ¬(s.plan.packInto roots fileType entry.1).Packages m c.1 := by
    intro packages
    rcases packages_packInto_iff.1 packages with ⟨_, same⟩ | old
    · exact fresh c member same.symm
    · exact reserving.untouched c (List.mem_cons_of_mem _ member) m old
  have before {key : List AssetKey × FileType} {x : AssetKey} (old : x ∈ s.provisional.setAt key)
      {roots : List AssetKey} {fileType : FileType} {m : AssetKey}
      (packages : (s.plan.packInto roots fileType entry.1).Packages m x) : ¬p.LoadsShared m := by
    rcases packages_packInto_iff.1 packages with ⟨_, same⟩ | packed
    · exact absurd same.symm (considering.fresh key x old entry List.mem_cons_self)
    · exact reserving.reserved key x old m packed
  have considered := considering.step success
  obtain ⟨asset, candidates, _, rfl, ⟨_, rfl⟩ | ⟨_, rfl⟩⟩ := consider_cases success
  · refine ⟨considered, coming, ?_⟩
    intro key x aside m packages
    rcases KeyMap.mem_setAt_update_insert.1 aside with ⟨rfl, rfl⟩ | old
    · rcases packages_packInto_iff.1 packages with ⟨direct, _⟩ | packed
      · rw [← loadsShared_congr considering.packs.roots]
        exact not_loadsShared_of_direct (List.mem_filter.1 direct).2
      · exact absurd packed (reserving.untouched entry List.mem_cons_self m)
    · exact before old packages
  · exact ⟨considered, coming, fun key x aside m packages => before aside packages⟩

/-- While what was set aside is settled, neither the assets of the bundles that are made nor those
still to come are packed into roots that load shared bundles. -/
structure Sealing (p : Plan) (i : Index) (config : Config) (claimed : KeySet AssetKey)
    (rest : List ((List AssetKey × FileType) × KeySet AssetKey)) (q : Plan) : Prop where
  settling : Settling p i config claimed rest q
  alone : q.SharesAlone
  waiting : ∀ c ∈ rest, ∀ x ∈ c.2, ∀ m, q.Packages m x → ¬p.LoadsShared m

theorem Sealing.step {entry : (List AssetKey × FileType) × KeySet AssetKey}
    {rest : List ((List AssetKey × FileType) × KeySet AssetKey)}
    (manualClaimed : ∀ key b, p.manualBundles.get? key = some b → ∀ x ∈ b.assets, x ∈ claimed)
    (sealing : Sealing p i config claimed (entry :: rest) q) {next : Plan}
    (success : (settle i config q entry).result = .ok next) :
    Sealing p i config claimed rest next := by
  have settling := sealing.settling
  obtain ⟨apart, _⟩ := List.pairwise_cons.1 settling.waiting
  have later : ∀ c ∈ rest, ∀ x ∈ c.2, ∀ m, q.Packages m x → ¬p.LoadsShared m :=
    fun c member => sealing.waiting c (List.mem_cons_of_mem _ member)
  have settled := settling.step manualClaimed success
  obtain ⟨size, _, ⟨_, rfl⟩ | ⟨_, rfl⟩⟩ := settle_cases success
  · -- the assets that are given back are in no other bundle
    have packs := packs_packAll_each q entry.1.1 entry.1.2 entry.2.toList
    refine ⟨settled, ?_, ?_⟩
    · intro b listed x has m packages
      rw [packs.sharedBundles] at listed
      rw [loadsShared_congr packs.roots]
      rcases packages_foldl.1 packages with ⟨_, _, _, member⟩ | old
      · exact absurd member (settling.fresh b listed entry List.mem_cons_self x has)
      · exact sealing.alone b listed x has m old
    · intro c listed x has m packages
      rcases packages_foldl.1 packages with ⟨_, _, _, member⟩ | old
      · exact absurd has (apart c listed x member)
      · exact later c listed x has m old
  · refine ⟨settled, ?_, later⟩
    intro b listed x has m packages
    rcases List.mem_append.1 listed with old | new
    · exact sealing.alone b old x has m packages
    · rw [List.mem_singleton.1 new] at has
      have kept := sealing.waiting entry List.mem_cons_self x has m packages
      rwa [← loadsShared_congr settling.roots] at kept

end Sharing

namespace Plan

variable {p q placed : Plan} {i : Index} {config : Config} {entries : List Entry}
  {m x : AssetKey}

theorem sharesAlone_shareAssets {claimed : KeySet AssetKey}
    {packing : KeyMap AssetKey (KeySet AssetKey)} (none : p.sharedBundles = [])
    (empty : p.placements = ∅)
    (manualClaimed : ∀ key b, p.manualBundles.get? key = some b → ∀ x ∈ b.assets, x ∈ claimed)
    (success : (p.shareAssets i config claimed packing).result = .ok q) : q.SharesAlone := by
  have untouched (m x : AssetKey) : ¬p.Packages m x := by
    rintro ⟨fileType, packed⟩
    unfold bucket buckets at packed
    rw [empty] at packed
    exact KeySet.not_mem_empty x packed
  unfold shareAssets at success
  obtain ⟨s, considered, success⟩ := Report.result_bind_eq_ok.1 success
  obtain ⟨_, settled, success⟩ := Report.result_bind_eq_ok.1 success
  cases success
  rw [Report.result_foldlM] at settled
  have reserving : Sharing.Reserving p i claimed [] s := by
    refine foldlM_ok_induction (Sharing.Reserving p i claimed)
      (fun _ _ _ _ reserving step => reserving.step step) ?_ considered
    refine ⟨Sharing.considering_start p i claimed packing, fun c _ m => untouched m c.1, ?_⟩
    intro key x aside
    exact absurd aside (KeySet.not_mem_empty x)
  have considering := reserving.considering
  have sealing : Sharing.Sealing p i config claimed [] q := by
    refine foldlM_ok_induction (Sharing.Sealing p i config claimed)
      (fun _ _ _ _ sealing step => sealing.step manualClaimed step) ?_ settled
    refine ⟨considering.settling none, ?_, ?_⟩
    · intro b listed
      rw [considering.packs.sharedBundles, none] at listed
      cases listed
    · intro c listed x member
      exact reserving.reserved c.1 x (Sharing.mem_setAt_of_mem_entries listed member)
  exact sealing.alone

theorem sharesAlone_of_places (places : i.Places config entries placed) : placed.SharesAlone := by
  obtain ⟨target, walked, reach, packing, extracted, e, walks, _, moved, shared⟩ := places.passes
  obtain ⟨rfl, rfl⟩ := Index.walkedPlan_ok walks
  obtain ⟨extraction, rfl⟩ := extractManualBundles_ok moved
  refine sharesAlone_shareAssets rfl rfl ?_ shared
  intro key b found x has
  exact (Extraction.claimed_of_extraction (fun key b none => by cases none) extraction found has).1

/-! Bundles of a plan. -/

/-- The plan makes a shared bundle that gets this id. -/
def SharesAs (p : Plan) (i : Index) (id : String) : Prop :=
  ∃ b ∈ p.liveSharedBundles, ∃ made, p.sharedBundle i b = .ok made ∧ made.id = id

/-- Limiting has put the asset into the bundles of the root. It was not there in the plan of the
same target in which all assets have been placed. -/
def CopiedByLimit (p : Plan) (g : AssetGraph) (config : Config) (root x : AssetKey) : Prop :=
  ∃ targets entries placed, (Index.ofGraph g).entriesByTarget g = .ok targets ∧
    targets.get? p.target.name = some entries ∧
    ((Index.ofGraph g).placedPlan config p.target entries).result = .ok placed ∧
    (placed.limitRequests (.ofGraph g) config).result = .ok p ∧ ¬placed.Packages root x

/-- A root with an asset of a shared bundle in its own bundles. -/
theorem entryLike_or_copied {g : AssetGraph} {build : Bundler.Build}
    (built : (Bundler.build config g).result = .ok build) (isPlan : p ∈ build.plans)
    {b : SharedBundle} (listed : b ∈ p.sharedBundles) (has : x ∈ b.assets)
    (packages : p.Packages m x) :
    ∃ r, p.root? m = some r ∧ (r.isEntryLike = true ∨ p.CopiedByLimit g config m x) := by
  obtain ⟨targets, entries, entered, found, success⟩ := Bundler.planned_of_build built isPlan
  obtain ⟨_, placed, places, limited⟩ := target_of_planTarget success
  obtain ⟨r, known⟩ := owners_of_planTarget success m x packages
  refine ⟨r, known, ?_⟩
  by_cases before : placed.Packages m x
  · have carries := carries_limitRequests (rootsReuse_of_places ⟨_, places⟩) limited
    obtain ⟨old, wasListed, continues⟩ := carries.shared b listed
    have alone := sharesAlone_of_places ⟨_, places⟩ old wasListed x (continues.assets ▸ has) m
      before
    rw [← loadsShared_congr carries.roots] at alone
    refine .inl (Bool.eq_true_of_not_eq_false fun plain => ?_)
    exact alone ⟨r, known, plain⟩
  · exact .inr ⟨targets, entries, placed, entered, found, places, limited, before⟩

/-- An asset of a shared bundle is in no other shared and in no manual bundle. -/
theorem SharesWell.eq_of_loaded (well : p.SharesWell i config) (differ : i.IdsDiffer)
    {b : SharedBundle} (live : b ∈ p.liveSharedBundles) {made c : Bundle}
    (makes : p.sharedBundle i b = .ok made) {fileType : FileType} {consumers : KeySet AssetKey}
    (listed : (.loaded fileType consumers, .ok c) ∈ p.plannedBundles i config) (has : x ∈ b.assets)
    {id : String} (named : i.idOf x = .ok id) (member : id ∈ c.assetIds) : c = made := by
  have isShared := (List.mem_filter.1 live).1
  rcases mem_plannedBundles_loaded.1 listed with
    ⟨other, otherLive, _, _, makesOther⟩ | ⟨key, manual, found, _, _, makesOther⟩
  · obtain ⟨_, ⟨_, ids⟩, _⟩ := sharedBundle_ok makesOther.symm
    by_cases same : other = b
    · rw [same, makes] at makesOther
      exact Except.ok.inj makesOther
    · have : Std.Symm fun a b : SharedBundle => Apart a.assets b.assets := ⟨fun _ _ => Apart.symm⟩
      have apart := (List.pairwise_map.1 well.apart).forall (List.mem_filter.1 otherLive).1 isShared
        same
      exact absurd has (apart x (differ.mem_of_mem_ids named ids member))
  · obtain ⟨_, ⟨_, ids⟩, _⟩ := manualBundle_ok makesOther.symm
    exact absurd (differ.mem_of_mem_ids named ids member)
      (((well.fit b isShared).assets x has).notManual key manual found)

/-- Where an asset of a shared bundle is written a second time: into the bundle of a root that is
entry-like or was given a copy by limiting. -/
theorem copy_of_written {g : AssetGraph} {build : Bundler.Build}
    (built : (Bundler.build config g).result = .ok build) (isPlan : p ∈ build.plans)
    {b : SharedBundle} (live : b ∈ p.liveSharedBundles) {made c : Bundle}
    (makes : p.sharedBundle (.ofGraph g) b = .ok made) {origin : BundleOrigin}
    (listed : (origin, .ok c) ∈ p.plannedBundles (.ofGraph g) config) (other : c.id ≠ made.id)
    {id : String} (shared : id ∈ made.assetIds) (again : id ∈ c.assetIds) :
    ∃ key fileType r x, origin = .bucket key fileType ∧ p.root? key = some r ∧
      (Index.ofGraph g).idOf x = .ok id ∧ x ∈ p.bucket key fileType ∧
      (r.isEntryLike = true ∨ p.CopiedByLimit g config key x) := by
  have differ := Index.idsDiffer_ofGraph g
  obtain ⟨entries, success, _⟩ := Bundler.entries_of_build built isPlan
  obtain ⟨placed, places, limited⟩ := Index.places_of_planTarget success
  obtain ⟨well, several⟩ := sharesWell_of_places places
  obtain ⟨well, _⟩ := sharesWell_limitRequests well several (rootsReuse_of_places places) limited
  obtain ⟨_, ⟨_, sharedIds⟩, _⟩ := sharedBundle_ok makes
  obtain ⟨x, has, named⟩ := exists_of_mem_result sharedIds shared
  cases origin with
  | loaded fileType consumers =>
    rw [well.eq_of_loaded differ live makes listed has named again] at other
    exact absurd rfl other
  | bucket key fileType =>
    obtain ⟨r, assets, known, placedAssets, _, makesOther⟩ := mem_plannedBundles_bucket.1 listed
    obtain ⟨_, ⟨_, ids⟩, _⟩ := bucketBundle_ok makesOther.symm
    have packed : x ∈ p.bucket key fileType :=
      KeyMap.mem_setAt_iff.2 ⟨assets, placedAssets, differ.mem_of_mem_ids named ids again⟩
    obtain ⟨owner, isOwner, copied⟩ :=
      entryLike_or_copied built isPlan (List.mem_filter.1 live).1 has ⟨fileType, packed⟩
    cases known.symm.trans isOwner
    exact ⟨key, fileType, r, x, rfl, known, named, packed, copied⟩

/-- A group of the plan that has this id loads a bundle of this origin, which is written. -/
def ListsFrom (p : Plan) (i : Index) (config : Config) (groupId : String) (origin : BundleOrigin)
    (id : String) : Prop :=
  ∃ group root, group ∈ p.groupRoots ∧ p.root? group = some root ∧ p.groupId root = groupId ∧
    p.WritesAs i config origin id ∧ p.LoadsOrigin group origin

/-- A bundle of kind shared is that of a shared bundle of the plan. -/
theorem sharesAs_of_kind {origin : BundleOrigin} {b : Bundle}
    (listed : (origin, .ok b) ∈ p.plannedBundles i config) (kind : b.kind = .shared) :
    p.SharesAs i b.id := by
  cases origin with
  | bucket root fileType =>
    obtain ⟨r, assets, _, _, _, makes⟩ := mem_plannedBundles_bucket.1 listed
    rw [(bucketBundle_label makes.symm).1] at kind
    cases kind
  | loaded fileType consumers =>
    rcases mem_plannedBundles_loaded.1 listed with
      ⟨shared, live, _, _, makes⟩ | ⟨key, manual, _, _, _, makes⟩
    · exact ⟨shared, live, b, makes.symm, rfl⟩
    · rw [(manualBundle_label makes.symm).1] at kind
      cases kind

end Plan

theorem BundleGraph.mem_bundles_of_listed {g : BundleGraph} {groupId : String} {inline : Bool}
    {b : Bundle} (listed : b ∈ g.bundlesInGroup groupId inline) : b ∈ g.bundles := by
  have along := List.mem_of_mem_filter listed
  unfold bundlesAlong at along
  split at along
  · obtain ⟨n, _, bundleAt⟩ := List.mem_filterMap.1 along
    exact mem_bundles.2 ⟨n, bundleAt⟩
  · cases along

namespace Bundler

variable {config : Config} {g : AssetGraph} {build : Build}

/-- What a group lists is loaded by a group of some plan that has its id. -/
theorem exists_listsFrom (success : (bundle config g .empty).2.result = .ok ())
    (built : (Bundler.build config g).result = .ok build) {group : BundleGroup}
    (isGroup : group ∈ (bundle config g .empty).1.groups) {b : Bundle}
    (listed : b ∈ (bundle config g .empty).1.bundlesInGroup group.id true) :
    ∃ p ∈ build.plans, ∃ origin, p.ListsFrom (.ofGraph g) config group.id origin b.id := by
  obtain ⟨other, ss, sameBuild, plans, keyed, stands, edges⟩ := bundle_spec success
  cases built.symm.trans sameBuild
  obtain ⟨n, groupAt⟩ := mem_groups.1 isGroup
  have groupKey := getElem?_keys_of_groupAt? groupAt
  obtain ⟨m, edge, bundleAt⟩ := (keyed.mem_bundlesInGroup groupKey).1 listed
  obtain ⟨⟨s, isWritten, asks⟩, _⟩ := (edges _).1 edge
  have isPlan : s.written.plan ∈ build.plans := plans ▸ List.mem_map_of_mem isWritten
  rcases (stands s isWritten).loadEdge_cases asks with rfl | ⟨key, root, isNode, known, reached⟩
  · cases keyed.root.symm.trans (groupAt?_eq_some_iff.1 groupAt)
  · obtain ⟨isRoot, other, sameRoot, named⟩ := (stands s isWritten).groups key n isNode
    cases known.symm.trans sameRoot
    have own := (assigned_of_build built isPlan).mem_members_self isRoot
    obtain ⟨c, isMade, rfl, loads⟩ := (WrittenPlan.mem_groupNodes own).1 reached
    obtain ⟨writes, bundleKey⟩ := (stands s isWritten).bundles c isMade
    have sameId := (getElem?_keys_of_bundleAt? bundleAt).symm.trans bundleKey
    rw [← Option.some_inj.1 sameId] at writes
    exact ⟨s.written.plan, isPlan, c.origin, key, root, isRoot, known,
      Option.some_inj.1 (named.symm.trans groupKey), writes, WrittenPlan.loads_iff.1 loads⟩

end Bundler

/-- Assets that are twice in a group, where bundling into an empty graph succeeds. If an asset of a
shared bundle is in another bundle that the group lists, then in every plan that makes the shared
bundle and writes the other one, that is the bundle of a root which has the asset in its own
bundles: it is entry-like and so loads no shared bundles, or limiting has given it a copy, which it
did not have before in the plan of this target. -/
theorem shared_assets_twice_in_a_group (config : Config) (g : AssetGraph)
    (success : (Bundler.bundle config g .empty).2.result = .ok ()) :
    ∃ build, (Bundler.build config g).result = .ok build ∧
      ∀ group ∈ (Bundler.bundle config g .empty).1.groups,
        ∀ b ∈ (Bundler.bundle config g .empty).1.bundlesInGroup group.id true, b.kind = .shared →
        ∀ c ∈ (Bundler.bundle config g .empty).1.bundlesInGroup group.id true, c.id ≠ b.id →
        ∀ id ∈ b.assetIds, id ∈ c.assetIds →
          (∃ p ∈ build.plans, p.SharesAs (.ofGraph g) b.id) ∧
          (∃ p ∈ build.plans, ∃ origin, p.ListsFrom (.ofGraph g) config group.id origin c.id) ∧
          ∀ p ∈ build.plans, p.SharesAs (.ofGraph g) b.id →
            ∀ origin, p.WritesAs (.ofGraph g) config origin c.id →
              ∃ key fileType r x, origin = .bucket key fileType ∧ p.root? key = some r ∧
                (Index.ofGraph g).idOf x = .ok id ∧ x ∈ p.bucket key fileType ∧
                (r.isEntryLike = true ∨ p.CopiedByLimit g config key x) := by
  obtain ⟨build, built, _⟩ := Bundler.bundle_ok_iff.1 success
  have sameIndex := (Bundler.plans_of_build built).1
  refine ⟨build, built, ?_⟩
  intro group isGroup b listed kind c again other id shared twice
  obtain ⟨first, isFirst, contents, label⟩ := Bundler.exists_first success built
    (mem_bundles_of_listed listed)
  obtain ⟨sameId, p, isPlan, origin, planned⟩ := Bundler.firstBundle?_eq_some isFirst
  rw [sameIndex] at planned
  refine ⟨⟨p, isPlan, ?_⟩, Bundler.exists_listsFrom success built isGroup again, ?_⟩
  · rw [← sameId]
    exact Plan.sharesAs_of_kind planned (label.kind.symm.trans kind)
  · rintro p isPlan ⟨bundle, live, made, makes, sharedId⟩ origin ⟨written, isWritten, writtenId⟩
    have madeListed : (.loaded bundle.fileType bundle.consumers, .ok made) ∈
        p.plannedBundles (.ofGraph g) config :=
      Plan.mem_plannedBundles_loaded.2 (.inl ⟨bundle, live, rfl, rfl, makes.symm⟩)
    have sharedIds := Bundler.assetIds_of_planned success built (mem_bundles_of_listed listed)
      (Bundler.mem_plannedAll.2 ⟨p, isPlan, _, madeListed⟩) sharedId
    have otherIds := Bundler.assetIds_of_planned success built (mem_bundles_of_listed again)
      (Bundler.mem_plannedAll.2 ⟨p, isPlan, origin, isWritten⟩) writtenId
    refine Plan.copy_of_written built isPlan live makes isWritten ?_ (sharedIds ▸ shared)
      (otherIds ▸ twice)
    rw [writtenId, sharedId]
    exact other

/-- Three parts that are loaded with an entry and need one library. The first may not be split. -/
def parallelParts : AssetGraph :=
  let parallel (id : String) : AssetGraph.Node :=
    .dependency { id, specifier := id, priority := .parallel }
  let library (id : String) : AssetGraph.Node := .dependency { id, specifier := "library" }
  { nodes := [.root, .dependency { id := "entry", specifier := "index", isEntry := true },
      .asset { id := "index" }, parallel "index to a", .asset { id := "a", isSplittable := false },
      parallel "index to b", .asset { id := "b" }, parallel "index to c", .asset { id := "c" },
      library "a to library", library "b to library", library "c to library",
      .asset { id := "library" }]
    edges := [(0, 1), (1, 2), (2, 3), (3, 4), (2, 5), (5, 6), (2, 7), (7, 8), (4, 9), (9, 12),
      (6, 10), (10, 12), (8, 11), (11, 12)] }

def shareAny : Config := { minBundleSize := 0 }

theorem parallelParts_facts :
    (Bundler.bundle shareAny parallelParts .empty).2.result = .ok () ∧
      ∃ group ∈ (Bundler.bundle shareAny parallelParts .empty).1.groups,
      ∃ b ∈ (Bundler.bundle shareAny parallelParts .empty).1.bundlesInGroup group.id true,
      ∃ c ∈ (Bundler.bundle shareAny parallelParts .empty).1.bundlesInGroup group.id true,
        b.kind = .shared ∧ b.assetIds = ["library"] ∧ c.assetIds = ["a", "library"] ∧
        c.isInline = false ∧ c.id ≠ b.id := by
  decide +kernel

/-- The library is in the bundle that the other parts share, and in that of the first part. -/
theorem parallelParts_library_twice :
    (Bundler.bundle shareAny parallelParts .empty).2.result = .ok () ∧
      ¬∀ group ∈ (Bundler.bundle shareAny parallelParts .empty).1.groups,
        ∀ b ∈ (Bundler.bundle shareAny parallelParts .empty).1.bundlesInGroup group.id true,
        b.kind = .shared →
        ∀ c ∈ (Bundler.bundle shareAny parallelParts .empty).1.bundlesInGroup group.id true,
        c.isInline = false → c.id ≠ b.id → ∀ id ∈ b.assetIds, id ∉ c.assetIds := by
  obtain ⟨success, group, isGroup, b, listed, c, again, kind, shared, own, external, other⟩ :=
    parallelParts_facts
  refine ⟨success, fun once => ?_⟩
  have absent := once group isGroup b listed kind c again external other "library"
  rw [shared, own] at absent
  exact absent (by decide) (by decide)

/-- The one plan has a root with a copy of the library. -/
theorem parallelParts_copied :
    (Bundler.bundle shareAny parallelParts .empty).2.result = .ok () ∧
      ∃ build, (Bundler.build shareAny parallelParts).result = .ok build ∧
        ∃ p ∈ build.plans, ∃ key fileType r x, p.root? key = some r ∧
          (Index.ofGraph parallelParts).idOf x = .ok "library" ∧ x ∈ p.bucket key fileType ∧
          (r.isEntryLike = true ∨ p.CopiedByLimit parallelParts shareAny key x) := by
  obtain ⟨success, group, isGroup, b, listed, c, again, kind, shared, own, _, other⟩ :=
    parallelParts_facts
  obtain ⟨build, built, each⟩ := shared_assets_twice_in_a_group shareAny parallelParts success
  have single : (Bundler.build shareAny parallelParts).result.map (·.plans.length) = .ok 1 := by
    decide +kernel
  rw [built] at single
  obtain ⟨p, only⟩ := List.length_eq_one_iff.1 (Except.ok.inj single)
  simp only [only, List.mem_singleton, exists_eq_left, forall_eq] at each
  obtain ⟨shares, ⟨origin, _, _, _, _, _, writes, _⟩, copied⟩ := each group isGroup b listed kind c
    again other "library" (by rw [shared]; decide) (by rw [own]; decide)
  obtain ⟨key, fileType, r, x, _, known, copy⟩ := copied shares origin writes
  exact ⟨success, build, built, p, only ▸ List.mem_singleton_self p, key, fileType, r, x, known,
    copy⟩

/-- Three pages that an entry loads later. The first two load a part along with them, and the first
has a style sheet. The part, the second page and the third one need a library. -/
def partOfTwoPages : AssetGraph :=
  let page (id : String) : AssetGraph.Node :=
    .dependency { id, specifier := id, priority := .lazy }
  let part (id : String) : AssetGraph.Node :=
    .dependency { id, specifier := "part", priority := .parallel }
  let library (id : String) : AssetGraph.Node := .dependency { id, specifier := "library" }
  { nodes := [.root, .dependency { id := "entry", specifier := "index", isEntry := true },
      .asset { id := "index" }, page "to a", .asset { id := "a" }, page "to b",
      .asset { id := "b" }, page "to c", .asset { id := "c" }, part "a to part", part "b to part",
      .asset { id := "part" }, library "part to library", library "b to library",
      library "c to library", .asset { id := "library" },
      .dependency { id := "a to style", specifier := "style" },
      .asset { id := "style", fileType := .css }]
    edges := [(0, 1), (1, 2), (2, 3), (3, 4), (2, 5), (5, 6), (2, 7), (7, 8), (4, 9), (9, 11),
      (6, 10), (10, 11), (11, 12), (12, 15), (6, 13), (13, 15), (8, 14), (14, 15), (4, 16),
      (16, 17)] }

def threeRequests : Config := { minBundleSize := 0, maxParallelRequests := 3 }

/-- The first page would need four bundles, so limiting copies the library into the part, which is
not entry-like. The second page loads it with the part and once more as a shared bundle. -/
theorem partOfTwoPages_copied_by_limit :
    (∃ group ∈ (Bundler.bundle threeRequests partOfTwoPages .empty).1.groups,
      ∃ b ∈ (Bundler.bundle threeRequests partOfTwoPages .empty).1.bundlesInGroup group.id true,
      ∃ c ∈ (Bundler.bundle threeRequests partOfTwoPages .empty).1.bundlesInGroup group.id true,
        b.kind = .shared ∧ b.assetIds = ["library"] ∧ c.assetIds = ["library", "part"]) ∧
      ∃ build, (Bundler.build threeRequests partOfTwoPages).result = .ok build ∧
        ∃ p ∈ build.plans, ∃ r, p.root? 5 = some r ∧ r.assetId = "part" ∧ r.isEntryLike = false ∧
          p.CopiedByLimit partOfTwoPages threeRequests 5 4 := by
  refine ⟨by decide +kernel, ?_⟩
  have planned : (Bundler.build threeRequests partOfTwoPages).result.map (·.plans.map fun p =>
      ((p.root? 5).map fun r => (r.assetId, r.isEntryLike), p.bucket 5 .js, p.sharedBundles)) =
      .ok [(some ("part", false), .ofList [4, 5],
        [⟨.js, .ofList [4], .ofList [1, 2], 0, true⟩])] := by decide +kernel
  cases built : (Bundler.build threeRequests partOfTwoPages).result with
  | error fault =>
    rw [built] at planned
    cases planned
  | ok build =>
    rw [built] at planned
    obtain ⟨p, only, facts⟩ := List.map_eq_singleton_iff.1 (Except.ok.inj planned)
    obtain ⟨isPart, facts⟩ := Prod.mk.inj facts
    obtain ⟨bucket, shared⟩ := Prod.mk.inj facts
    obtain ⟨r, known, labels⟩ := Option.map_eq_some_iff.1 isPart
    obtain ⟨named, plain⟩ := Prod.mk.inj labels
    have isPlan : p ∈ build.plans := only ▸ List.mem_singleton_self p
    have packages : p.Packages 5 4 := ⟨.js, by rw [bucket]; decide⟩
    obtain ⟨other, isOther, copied⟩ := Plan.entryLike_or_copied built isPlan
      (shared ▸ List.mem_singleton_self _) (by decide) packages
    cases known.symm.trans isOther
    refine ⟨build, rfl, p, isPlan, r, known, named, plain, copied.resolve_left ?_⟩
    simp [plain]

end CodeSplit
