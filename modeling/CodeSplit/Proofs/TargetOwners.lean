import CodeSplit.Proofs.GroupDuplicates

/-!
Targets that are written into one graph. Each target has a plan, and the plans are written in the
order of the names of their targets. A group belongs to the first target that has a group with its
id, and a bundle to the first target that writes a bundle with its id, which later targets with the
same contents share. So a group lists a bundle of another target exactly where an earlier target has
written this bundle already, as long as no two targets have a group with one id.
-/
namespace CodeSplit

open BundleGraph

namespace Plan

variable {p q : Plan} {i : Index} {config : Config} {group : AssetKey}

/-- The bundles of a plan are for its target. -/
theorem target_of_planned {origin : BundleOrigin} {b : Bundle}
    (listed : (origin, .ok b) ∈ p.plannedBundles i config) : b.target = p.target := by
  cases origin with
  | bucket root fileType =>
    obtain ⟨_, _, _, _, _, made⟩ := mem_plannedBundles_bucket.1 listed
    exact (bucketBundle_label made.symm).2.1
  | loaded fileType consumers =>
    rcases mem_plannedBundles_loaded.1 listed with ⟨_, _, _, _, made⟩ | ⟨_, _, _, _, _, made⟩
    · exact (sharedBundle_label made.symm).2.1
    · exact (manualBundle_label made.symm).2.1

end Plan

/-! The order of the plans. -/

namespace Bundler

variable {config : Config} {g : AssetGraph} {build : Build}

/-- Plans come in the order of the names of their targets, which differ. -/
theorem pairwise_plans (built : (Bundler.build config g).result = .ok build) :
    build.plans.Pairwise fun p q => KeyOrder.before p.target.name q.target.name = true := by
  obtain ⟨targets, plans, entered, found, rfl⟩ := build_eq_ok_iff.1 built
  have named : ∀ e ∈ targets.entries, ∀ p,
      ((Index.ofGraph g).planTarget config e.2).result = .ok p → p.target.name = e.1 := by
    intro e listed p planned
    obtain ⟨⟨entry, isEntry, same⟩, _⟩ := Plan.target_of_planTarget planned
    rw [same]
    exact (Index.entry_of_target entered (KeyMap.get?_eq_some_iff.2 listed) isEntry).1
  have ordered : targets.entries.Pairwise fun a b => KeyOrder.before a.1 b.1 = true ∧
      a ∈ targets.entries ∧ b ∈ targets.entries :=
    targets.ascending.imp_of_mem fun left right before => ⟨before, left, right⟩
  refine pairwise_of_mapM found ordered ?_
  rintro a b p q ⟨before, left, right⟩ first second
  rw [named a left p (Report.result_mapFault.1 first),
    named b right q (Report.result_mapFault.1 second)]
  exact before

end Bundler

/-! Who comes first. -/

namespace Plan

/-- A group of the plan has this id. -/
def HasGroup (p : Plan) (id : String) : Prop :=
  ∃ key ∈ p.groupRoots, ∃ root, p.root? key = some root ∧ p.groupId root = id

/-- The plan writes a bundle with this id. -/
def Writes (p : Plan) (i : Index) (config : Config) (id : String) : Prop :=
  ∃ origin, p.WritesAs i config origin id

/-- Of the plans with a property, the plan is the one whose target has the first name. -/
structure IsFirst (plans : List Plan) (has : Plan → Prop) (p : Plan) : Prop where
  listed : p ∈ plans
  holds : has p
  first : ∀ q ∈ plans, has q → KeyOrder.before q.target.name p.target.name = false

section Order

variable {plans : List Plan} {has : Plan → Prop} {p q : Plan}
  (ordered : plans.Pairwise fun p q => KeyOrder.before p.target.name q.target.name = true)

include ordered

theorem isFirst_of_split {earlier later : List Plan} (split : plans = earlier ++ p :: later)
    (isSo : has p) (none : ∀ q ∈ earlier, ¬has q) : IsFirst plans has p := by
  subst split
  obtain ⟨_, rest, _⟩ := List.pairwise_append.1 ordered
  refine ⟨List.mem_append_right _ List.mem_cons_self, isSo, ?_⟩
  intro q listed isSoToo
  rcases List.mem_append.1 listed with before | now
  · exact absurd isSoToo (none q before)
  rcases List.mem_cons.1 now with rfl | after
  · exact KeyOrder.irrefl _
  · exact KeyOrder.asymm ((List.pairwise_cons.1 rest).1 q after)

/-- Two plans are not for one target. -/
theorem eq_of_name (isPlan : p ∈ plans) (isOther : q ∈ plans)
    (same : p.target.name = q.target.name) : p = q := by
  have distinct : (plans.map fun p => p.target.name).Nodup :=
    List.pairwise_map.2 (ordered.imp KeyOrder.ne_of_before)
  exact List.inj_on_of_nodup_map distinct isPlan isOther same

end Order

end Plan

namespace BundleGraph

variable {g next : BundleGraph} {group : BundleGroup} {n : NodeId} {i : Index} {config : Config}

theorem mem_groups_iff_mem_nodes : group ∈ g.groups ↔ .group group ∈ g.nodes := by
  rw [mem_groups, List.mem_iff_getElem?]
  simp only [groupAt?_eq_some_iff]

theorem mem_groups_addGroup {added : BundleGroup} (isGroup : group ∈ (g.addGroup added).1.groups) :
    group ∈ g.groups ∨ (group = added ∧ added.id ∉ g.keys) := by
  unfold addGroup at isGroup
  cases found : g.nodeOfKey? added.id with
  | some n =>
    rw [found] at isGroup
    exact .inl isGroup
  | none =>
    rw [found] at isGroup
    rw [mem_groups_iff_mem_nodes] at isGroup ⊢
    rcases List.mem_append.1 isGroup with old | new
    · exact .inl old
    · cases List.mem_singleton.1 new
      exact .inr ⟨rfl, nodeOfKey?_eq_none found⟩

theorem mem_keys_addGroup {key : String} (old : key ∈ g.keys) (added : BundleGroup) :
    key ∈ (g.addGroup added).1.keys := by
  unfold addGroup
  cases g.nodeOfKey? added.id with
  | some n => exact old
  | none =>
    rw [keys_addNode]
    exact List.mem_append_left _ old

theorem mem_groups_addBundle {bundle : Bundle} (success : g.addBundle bundle = .ok (next, n))
    (isGroup : group ∈ next.groups) : group ∈ g.groups := by
  rw [mem_groups_iff_mem_nodes] at isGroup ⊢
  unfold addBundle at success
  split at success
  · cases success
    rcases List.mem_append.1 isGroup with old | new
    · exact old
    · cases List.mem_singleton.1 new
  · split at success
    · split at success
      · cases success
        rcases List.mem_or_eq_of_mem_set isGroup with old | new
        · exact old
        · cases new
      · cases success
    · cases success

theorem mem_groups_addBundles {planned : List (BundleOrigin × Except Fault Bundle)}
    {written : List WrittenBundle} (success : addBundles planned g = (next, .ok written))
    (isGroup : group ∈ next.groups) : group ∈ g.groups := by
  induction planned generalizing g written with
  | nil =>
    cases success
    exact isGroup
  | cons entry rest ih =>
    obtain ⟨bundle, middle, node, others, _, stored, result, _⟩ := addBundles_cons_ok success
    exact mem_groups_addBundle stored (ih result)

theorem groups_linkAll (g : BundleGraph) (edges : List Edge) :
    (g.linkAll edges).groups = g.groups := by
  unfold groups
  rw [nodes_linkAll]

/-- A new group has the target of the plan, and an id that was not in use. -/
theorem mem_groups_writeGroups {w : WrittenPlan} {roots : List AssetKey}
    {nodes : KeyMap AssetKey NodeId} (success : writeGroups w roots g = (next, .ok nodes))
    (isGroup : group ∈ next.groups) :
    group ∈ g.groups ∨ (group.id ∉ g.keys ∧ group.target = w.plan.target ∧
      ∃ key ∈ roots, ∃ root, w.plan.root? key = some root ∧ w.plan.groupId root = group.id) := by
  induction roots generalizing g nodes with
  | nil =>
    cases success
    exact .inl isGroup
  | cons key roots ih =>
    obtain ⟨root, middle, node, others, known, made, result, _⟩ := writeGroups_cons_ok success
    unfold writeGroup at made
    obtain ⟨rfl, _⟩ := Prod.mk.inj made
    rcases ih result with old | ⟨new, target, other, listed, isRoot⟩
    · rw [groups_linkAll] at old
      rcases mem_groups_addGroup old with before | ⟨rfl, absent⟩
      · exact .inl before
      · exact .inr ⟨absent, rfl, key, List.mem_cons_self, root, known, rfl⟩
    · refine .inr ⟨?_, target, other, List.mem_cons_of_mem _ listed, isRoot⟩
      intro before
      apply new
      rw [keys_linkAll]
      exact mem_keys_addGroup before _

theorem mem_groups_of_writesIn {s : Inscription} {filled grouped : BundleGraph}
    (writes : s.WritesIn i config g filled grouped next) (keyed : g.WellKeyed)
    (isGroup : group ∈ next.groups) :
    group ∈ g.groups ∨ (group.id ∉ g.keys ∧ group.target = s.written.plan.target ∧
      s.written.plan.HasGroup group.id) := by
  obtain ⟨fills, _⟩ :=
    addBundles_spec keyed (fun _ _ listed => Plan.isDigest_of_planned listed) writes.bundles
  rw [writes.last, groups_linkAll, groups_linkAll] at isGroup
  rcases mem_groups_writeGroups writes.groups isGroup with old | ⟨new, target, isNew⟩
  · exact .inl (mem_groups_addBundles writes.bundles old)
  · exact .inr ⟨fun before => new (fills.keys.subset before), target, isNew⟩

/-- A group that writing some plans has added is of the first plan that has a group with its id. -/
theorem mem_groups_writePlans {plans : List Plan} (keyed : g.WellKeyed)
    (ok : (Bundler.writePlans i config plans g).2.result = .ok ())
    (isGroup : group ∈ (Bundler.writePlans i config plans g).1.groups) :
    group ∈ g.groups ∨ (group.id ∉ g.keys ∧ ∃ earlier p later, plans = earlier ++ p :: later ∧
      p.HasGroup group.id ∧ group.target = p.target ∧ ∀ q ∈ earlier, ¬q.HasGroup group.id) := by
  induction plans generalizing g with
  | nil => exact .inl isGroup
  | cons p plans ih =>
    obtain ⟨s, filled, grouped, next, rfl, writes, rest, result⟩ := writePlans_cons_ok ok
    rw [result] at isGroup
    obtain ⟨grows, stands, _⟩ := writes.standsIn keyed
    rcases ih grows.keyed rest isGroup with
      old | ⟨new, earlier, q, later, rfl, isGroup, target, none⟩
    · rcases mem_groups_of_writesIn writes keyed old with before | ⟨new, target, has⟩
      · exact .inl before
      · exact .inr ⟨new, [], s.written.plan, plans, rfl, has, target, fun _ none => by cases none⟩
    · refine .inr ⟨fun before => new (grows.keys.subset before), s.written.plan :: earlier, q,
        later, rfl, isGroup, target, ?_⟩
      intro p listed
      rcases List.mem_cons.1 listed with rfl | listed
      · -- the id of a group of the plan is in use once the plan is written
        rintro ⟨key, isRoot, root, known, sameId⟩
        obtain ⟨node, found⟩ := stands.allGroups key isRoot
        obtain ⟨_, other, sameRoot, isKey⟩ := stands.groups key node found
        cases known.symm.trans sameRoot
        exact new (sameId ▸ List.mem_of_getElem? isKey)
      · exact none p listed

end BundleGraph

theorem find?_flatMap_split {α β : Type} {f : α → List β} {wanted : β → Bool} {xs : List α} {y : β}
    (found : (xs.flatMap f).find? wanted = some y) :
    ∃ earlier x later, xs = earlier ++ x :: later ∧ y ∈ f x ∧
      ∀ e ∈ earlier, ∀ z ∈ f e, wanted z = false := by
  induction xs with
  | nil => cases found
  | cons x xs ih =>
    rw [List.flatMap_cons, List.find?_append] at found
    cases here : (f x).find? wanted with
    | some z =>
      rw [here] at found
      cases found
      exact ⟨[], x, xs, rfl, List.mem_of_find?_eq_some here, fun _ none => by cases none⟩
    | none =>
      rw [here] at found
      obtain ⟨earlier, other, later, rfl, member, none⟩ := ih found
      refine ⟨x :: earlier, other, later, rfl, member, ?_⟩
      intro e listed z isMade
      rcases List.mem_cons.1 listed with rfl | listed
      · simpa using List.find?_eq_none.1 here z isMade
      · exact none e listed z isMade

namespace Bundler

variable {config : Config} {g : AssetGraph} {build : Build}

section Owners

variable (success : (bundle config g .empty).2.result = .ok ())
  (built : (Bundler.build config g).result = .ok build)

include success built

/-- A group is for the target of the first plan that has a group with its id. -/
theorem exists_owner {group : BundleGroup} (isGroup : group ∈ (bundle config g .empty).1.groups) :
    ∃ owner, Plan.IsFirst build.plans (·.HasGroup group.id) owner ∧
      group.target = owner.target := by
  obtain ⟨other, sameBuild, wrote⟩ := bundle_ok_iff.1 success
  cases built.symm.trans sameBuild
  rw [fst_bundle built wrote] at isGroup
  rcases mem_groups_writePlans wellKeyed_empty wrote isGroup with
    none | ⟨_, earlier, p, later, split, has, target, none⟩
  · cases none
  · exact ⟨p, Plan.isFirst_of_split (pairwise_plans built) split has none, target⟩

/-- A bundle is for the target of the first plan that writes a bundle with its id. -/
theorem exists_writer {b : Bundle} (isBundle : b ∈ (bundle config g .empty).1.bundles) :
    ∃ writer, Plan.IsFirst build.plans (·.Writes (.ofGraph g) config b.id) writer ∧
      b.target = writer.target := by
  obtain ⟨first, isFirst, same, label⟩ := exists_first success built isBundle
  unfold firstBundle? plannedAll at isFirst
  have sameId : first.id = b.id := by simpa using List.find?_some isFirst
  rw [(plans_of_build built).1] at isFirst
  obtain ⟨earlier, p, later, split, member, none⟩ := find?_flatMap_split isFirst
  obtain ⟨origin, planned⟩ := mem_made.1 member
  refine ⟨p, Plan.isFirst_of_split (pairwise_plans built) split ⟨origin, first, planned, sameId⟩ ?_,
    label.target.trans (Plan.target_of_planned planned)⟩
  rintro q listed ⟨other, again, plannedToo, sameToo⟩
  have absent := none q listed again (mem_made.2 ⟨other, plannedToo⟩)
  rw [decide_eq_false_iff_not] at absent
  exact absent sameToo

end Owners

/-- Two plans have no group id in common where all assets have ids of one length. -/
theorem eq_of_hasGroup (built : (Bundler.build config g).result = .ok build)
    (evenly : ∀ n a m c, (n, a) ∈ g.assets → (m, c) ∈ g.assets → a.id.length = c.id.length)
    {p q : Plan} (isPlan : p ∈ build.plans) (isOther : q ∈ build.plans) {id : String}
    (left : p.HasGroup id) (right : q.HasGroup id) : p = q := by
  have named {p : Plan} (isPlan : p ∈ build.plans) {key : AssetKey} {root : Root}
      (known : p.root? key = some root) : ∃ n a, (n, a) ∈ g.assets ∧ a.id = root.assetId := by
    obtain ⟨entries, planned⟩ := (plans_of_build built).2 p isPlan
    have indexed := Index.getElem?_idsOfGraph
      ((Plan.writable_of_planTarget planned).named key root known)
    obtain ⟨e, isAsset, same⟩ := List.mem_map.1 (KeySet.mem_ofList.1 (List.mem_of_getElem? indexed))
    exact ⟨e.1, e.2, isAsset, same⟩
  obtain ⟨key, _, root, known, isId⟩ := left
  obtain ⟨other, _, otherRoot, otherKnown, sameId⟩ := right
  obtain ⟨n, a, isAsset, sameLeft⟩ := named isPlan known
  obtain ⟨m, c, isAssetToo, sameRight⟩ := named isOther otherKnown
  have lengths := evenly n a m c isAsset isAssetToo
  rw [sameLeft, sameRight] at lengths
  have texts := congrArg String.toList (isId.trans sameId.symm)
  simp only [Plan.groupId, String.toList_append] at texts
  refine Plan.eq_of_name (pairwise_plans built) isPlan isOther (String.toList_inj.1 ?_)
  have sameLengths : root.assetId.toList.length = otherRoot.assetId.toList.length := by
    rw [String.length_toList, String.length_toList, lengths]
  exact List.append_cancel_left (List.append_inj' texts sameLengths).1

end Bundler

/-- The targets of groups and bundles, where bundling into an empty graph succeeds. A group is for
the first target, in the order of their names, that has a group with its id, and a bundle for the
first that writes a bundle with its id. What a group lists was written by some target that has the
group, with these very assets. So, where ids of assets are of one length and targets do not share
groups, a listed bundle is for the target of the group unless a target with an earlier name writes
the bundle too. -/
theorem targets_of_listed_bundles (config : Config) (g : AssetGraph)
    (success : (Bundler.bundle config g .empty).2.result = .ok ()) :
    ∃ build, (Bundler.build config g).result = .ok build ∧
      (∀ group ∈ (Bundler.bundle config g .empty).1.groups,
        ∃ owner, Plan.IsFirst build.plans (·.HasGroup group.id) owner ∧
          group.target = owner.target) ∧
      (∀ b ∈ (Bundler.bundle config g .empty).1.bundles,
        ∃ writer, Plan.IsFirst build.plans (·.Writes (.ofGraph g) config b.id) writer ∧
          b.target = writer.target) ∧
      ∀ group ∈ (Bundler.bundle config g .empty).1.groups,
      ∀ b ∈ (Bundler.bundle config g .empty).1.bundlesInGroup group.id true,
        (∃ loader ∈ build.plans, ∃ origin planned,
          loader.ListsFrom (.ofGraph g) config group.id origin b.id ∧
          (origin, .ok planned) ∈ loader.plannedBundles (.ofGraph g) config ∧
          planned.id = b.id ∧ planned.assetIds = b.assetIds ∧ planned.target = loader.target) ∧
        ((∀ n a m c, (n, a) ∈ g.assets → (m, c) ∈ g.assets → a.id.length = c.id.length) →
          (b.target = group.target ↔ ∀ p ∈ build.plans, p.Writes (.ofGraph g) config b.id →
            KeyOrder.before p.target.name group.target.name = false)) := by
  obtain ⟨build, built, _⟩ := Bundler.bundle_ok_iff.1 success
  refine ⟨build, built, fun _ => Bundler.exists_owner success built,
    fun _ => Bundler.exists_writer success built, ?_⟩
  intro group isGroup b listed
  have isBundle := mem_bundles_of_listed listed
  obtain ⟨loader, isPlan, origin, lists⟩ := Bundler.exists_listsFrom success built isGroup listed
  obtain ⟨key, root, isRoot, known, isId, ⟨planned, isPlanned, sameId⟩, _⟩ := id lists
  have sameAssets := Bundler.assetIds_of_planned success built isBundle
    (Bundler.mem_plannedAll.2 ⟨loader, isPlan, origin, isPlanned⟩) sameId
  refine ⟨⟨loader, isPlan, origin, planned, lists, isPlanned, sameId, sameAssets,
    Plan.target_of_planned isPlanned⟩, ?_⟩
  intro evenly
  obtain ⟨owner, owns, groupTarget⟩ := Bundler.exists_owner success built isGroup
  obtain ⟨writer, writes, bundleTarget⟩ := Bundler.exists_writer success built isBundle
  -- the group is that of the plan which lists the bundle
  obtain rfl : owner = loader := Bundler.eq_of_hasGroup built evenly owns.listed isPlan owns.holds
    ⟨key, isRoot, root, known, isId⟩
  rw [groupTarget, bundleTarget]
  constructor
  · intro same p isOther writesToo
    rw [← same]
    exact writes.first p isOther writesToo
  · intro none
    have sameName := KeyOrder.total (none writer writes.listed writes.holds)
      (writes.first owner isPlan ⟨origin, planned, isPlanned, sameId⟩)
    rw [Plan.eq_of_name (Bundler.pairwise_plans built) writes.listed isPlan sameName]

/-- An entry of two targets that are written to one directory. -/
def twoTargets : AssetGraph :=
  { nodes := [.root,
      .dependency { id := "entry of a", specifier := "index", isEntry := true,
                    target := some { name := "a" } },
      .dependency { id := "entry of b", specifier := "index", isEntry := true,
                    target := some { name := "b" } },
      .asset { id := "index" }]
    edges := [(0, 1), (0, 2), (1, 3), (2, 3)] }

theorem twoTargets_facts : (Bundler.bundle {} twoTargets .empty).2.result = .ok () ∧
    ∃ group ∈ (Bundler.bundle {} twoTargets .empty).1.groups,
      ∃ b ∈ (Bundler.bundle {} twoTargets .empty).1.bundlesInGroup group.id true,
        b.target ≠ group.target ∧ b.target.distDir = group.target.distDir := by
  decide +kernel

/-- The group of the second target lists the bundle that was written for the first. -/
theorem twoTargets_one_bundle : (Bundler.bundle {} twoTargets .empty).2.result = .ok () ∧
    ¬∀ group ∈ (Bundler.bundle {} twoTargets .empty).1.groups,
      ∀ b ∈ (Bundler.bundle {} twoTargets .empty).1.bundlesInGroup group.id true,
        b.target = group.target := by
  obtain ⟨success, group, isGroup, b, listed, differ, _⟩ := twoTargets_facts
  exact ⟨success, fun apart => differ (apart group isGroup b listed)⟩

/-- A target with an earlier name than that of the group has written the bundle. -/
theorem twoTargets_earlier_writer : (Bundler.bundle {} twoTargets .empty).2.result = .ok () ∧
    ∃ build, (Bundler.build {} twoTargets).result = .ok build ∧
      ∃ group ∈ (Bundler.bundle {} twoTargets .empty).1.groups,
      ∃ b ∈ (Bundler.bundle {} twoTargets .empty).1.bundlesInGroup group.id true,
        b.target ≠ group.target ∧ ∃ p ∈ build.plans,
          p.Writes (.ofGraph twoTargets) {} b.id ∧
          KeyOrder.before p.target.name group.target.name = true := by
  obtain ⟨success, group, isGroup, b, listed, differ, _⟩ := twoTargets_facts
  obtain ⟨build, built, _, _, each⟩ := targets_of_listed_bundles {} twoTargets success
  obtain ⟨_, apart⟩ := each group isGroup b listed
  have evenly : ∀ x ∈ twoTargets.assets, ∀ y ∈ twoTargets.assets,
      x.2.id.length = y.2.id.length := by decide
  have apart := apart fun n a m c left right => evenly (n, a) left (m, c) right
  refine ⟨success, build, built, group, isGroup, b, listed, differ, ?_⟩
  rw [Ne, apart] at differ
  push Not at differ
  obtain ⟨p, isPlan, writes, earlier⟩ := differ
  exact ⟨p, isPlan, writes, by simpa using earlier⟩

end CodeSplit
