import CodeSplit.Proofs.RepeatedBundling

/-!
Bundles that no group loads. A bundle is in a group exactly if some group of some plan has one of
its roots for a member. Every asset that the entries lead to is reached by a root that belongs to a
group, as long as each root on the way gets a group. There are three ways in which one does not.
-/
namespace CodeSplit

open BundleGraph
open Relation (ReflTransGen)

namespace Index

variable {i : Index} {roots : KeyMap AssetKey Root} {key asset target : AssetKey} {root : Root}

/-- Where a walk that is split meets a dependency that starts a bundle, it crosses into it. -/
theorem crosses_of_boundary (several : root.isSingleFile = false) {link : Link}
    (member : link ∈ i.links asset) (resolved : link.target = some target)
    (starts : (i.triggersOf asset link.dependency target).isEmpty = false) (other : target ≠ key) :
    Step.cross ⟨key, target, asset, link.dependency.id, i.triggersOf asset link.dependency target⟩ ∈
      i.stepsOf roots key root asset :=
  mem_stepsOf.2 ⟨link, member, target, resolved, by simp [step, several, starts, other]⟩

end Index

/-- The bundle is of the root, or the root loads it. -/
def BundleOrigin.Of (root : AssetKey) : BundleOrigin → Prop
  | .bucket owner _ => owner = root
  | .loaded _ consumers => root ∈ consumers

namespace Plan

variable {p q : Plan} {i : Index} {config : Config} {entries : List Entry}
  {group loader key x : AssetKey} {root : Root}

/-- The root belongs to a group, reuse apart. -/
def Grounded (p : Plan) (key : AssetKey) : Prop := ∃ group, group ∈ p.groupsOf key

/-- How a root that a group loads can lead to another that gets no group from it. -/
inductive LeavesOut (p : Plan) (i : Index) (loader stranded : AssetKey) : Prop
  /-- A dependency that would create a group leads to a root which is inline for another one. -/
  | isolated {e : BundleEdge} {root : Root} : e ∈ p.edges → e.source = loader →
      e.target = stranded → e.triggers.isolated = true → e.triggers.inline = false →
      p.root? stranded = some root → root.triggers.inline = true →
      root.triggers.createsGroup = false → LeavesOut p i loader stranded
  /-- The loader has the code of the other in its single file, so that nothing is loaded. -/
  | singleFile {asset : AssetKey} {link : Link} {root : Root} : p.root? loader = some root →
      root.isSingleFile = true → asset ∈ (i.reach p.roots).reachedBy loader →
      link ∈ i.links asset → link.target = some stranded →
      (i.triggersOf asset link.dependency stranded).isEmpty = false → LeavesOut p i loader stranded
  /-- The loader reuses the other, which joins no group for that. -/
  | reused : (loader, stranded) ∈ i.reusedRoots p.roots → LeavesOut p i loader stranded

/-- A root that belongs to a group leads to one that belongs to none. -/
structure Strands (p : Plan) (i : Index) (loader stranded : AssetKey) : Prop where
  grounded : p.Grounded loader
  ungrounded : ¬p.Grounded stranded
  leavesOut : p.LeavesOut i loader stranded

/-- Limiting keeps the edges that the walks found. -/
theorem Removes.keepsEdges (removes : p.Removes i group q) {e : BundleEdge} (listed : e ∈ p.edges) :
    e ∈ q.edges := by
  rcases removes.effects with enriches | ⟨_, _, _, spreads, enriches⟩
  · rwa [enriches.edges]
  · rw [enriches.edges]
    exact (spreads.edges e).2 (.inl listed)

theorem edges_of_planTarget (success : (i.planTarget config entries).result = .ok p) :
    ∀ e ∈ i.bundleEdges p.roots, e ∈ p.edges := by
  rw [Index.roots_of_planTarget success]
  obtain ⟨placed, places, limited⟩ := Index.places_of_planTarget success
  obtain ⟨_, shape⟩ := places.sameShape
  obtain ⟨_, run⟩ := removesIn_of_limitRequests limited
  intro e listed
  refine run.keeps (motive := fun q => e ∈ q.edges) (fun _ _ _ kept removes => ?_) ?_
  · exact removes.keepsEdges kept
  · rwa [shape.edges]

theorem Assigned.grounded_of_createsGroup (assigned : p.Assigned) (known : p.root? key = some root)
    (creates : root.triggers.createsGroup = true) : p.Grounded key := by
  refine ⟨key, ?_⟩
  rw [← assigned.groupsOf_eq]
  exact mem_groupsOf_withGroups.2 ⟨mem_groupRoots.2 ⟨root, known, creates⟩, .refl⟩

theorem Assigned.grounded_of_edge (assigned : p.Assigned) {e : BundleEdge} (listed : e ∈ p.edges)
    (joint : e.triggers.createsGroup = false) (grounded : p.Grounded e.source) :
    p.Grounded e.target := by
  obtain ⟨group, own⟩ := grounded
  refine ⟨group, ?_⟩
  rw [← assigned.groupsOf_eq] at own ⊢
  exact settled_withGroups p e listed joint group own

section Walking

variable (success : (i.planTarget config entries).result = .ok p) (inside : i.ResolvesInside)

include success inside

/-- An edge from a root of a group leads to a root of a group, or isolates one that is inline. -/
theorem grounded_or_isolated {e : BundleEdge} (listed : e ∈ p.edges)
    (grounded : p.Grounded e.source) : p.Grounded e.target ∨ p.LeavesOut i e.source e.target := by
  have assigned := assigned_of_planTarget success
  obtain ⟨anchored, _⟩ := anchored_and_rooted_of_planTarget inside success
  obtain ⟨_, root, known, within⟩ := anchored e listed
  cases joint : e.triggers.createsGroup with
  | false => exact .inl (assigned.grounded_of_edge listed joint grounded)
  | true =>
    cases creates : root.triggers.createsGroup with
    | true => exact .inl (assigned.grounded_of_createsGroup known creates)
    | false =>
      obtain ⟨isolated, notInline, _, inline⟩ := within.createsGroup joint creates
      exact .inr (.isolated listed rfl rfl isolated notInline known inline creates)

/-- A dependency that starts a bundle, declared where a root of a group leads to. -/
theorem grounded_or_leavesOut (known : p.root? loader = some root) (grounded : p.Grounded loader)
    {asset : AssetKey} (walked : ReflTransGen (i.Enters p.roots loader root) loader asset)
    {link : Link} (member : link ∈ i.links asset) (resolved : link.target = some x)
    (starts : (i.triggersOf asset link.dependency x).isEmpty = false) :
    p.Grounded x ∨ p.LeavesOut i loader x := by
  cases single : root.isSingleFile with
  | true =>
    exact .inr (.singleFile known single (Index.mem_reachedBy.2 ⟨root, known, walked⟩) member
      resolved starts)
  | false =>
    by_cases other : x = loader
    · exact .inl (other ▸ grounded)
    · have crossing : Step.cross _ ∈ i.stepsOf p.roots loader root asset :=
        Index.crosses_of_boundary single member resolved starts other
      have listed := edges_of_planTarget success _
        (Index.mem_bundleEdges.2 ⟨loader, root, known, asset, walked, crossing⟩)
      exact grounded_or_isolated success inside listed grounded

theorem root_of_reachable_boundary {asset : AssetKey} (reachable : i.Reachable entries asset)
    {link : Link} (member : link ∈ i.links asset) (resolved : link.target = some x)
    (starts : (i.triggersOf asset link.dependency x).isEmpty = false) :
    ∃ root, p.root? x = some root := by
  unfold root?
  rw [Index.roots_of_planTarget success]
  exact Index.exists_root_of_boundary inside reachable member resolved starts

omit inside in
/-- Roots that entries make belong to groups. -/
theorem grounded_of_entry {entry : Entry} (listed : entry ∈ entries)
    (known : p.root? entry.asset = some root) : p.Grounded entry.asset := by
  refine (assigned_of_planTarget success).grounded_of_createsGroup known ?_
  rw [root?, Index.roots_of_planTarget success] at known
  obtain ⟨_, asset, _, rfl⟩ := Index.get?_roots_eq_some_iff.1 known
  have created : entry.creation ∈ (i.creations entries).filter (·.asset = entry.asset) :=
    List.mem_filter.2
      ⟨List.mem_append_left _ (List.mem_map_of_mem listed), by simp [Entry.creation]⟩
  by_contra joint
  obtain ⟨isolated, _⟩ := (Triggers.within_foldl created {}).createsGroup rfl
    (Bool.eq_false_iff.2 joint)
  cases isolated

/-- Whatever the entries lead to is reached by a root of a group, or lies behind a root that belongs
to none. -/
theorem reached_or_stranded
    (indexed : ∀ entry ∈ entries, ∃ asset, i.asset? entry.asset = some asset)
    (reachable : i.Reachable entries x) :
    (∃ loader root, p.root? loader = some root ∧ p.Grounded loader ∧
      ReflTransGen (i.Enters p.roots loader root) loader x) ∨
    ∃ loader stranded, p.Strands i loader stranded ∧ ReflTransGen i.Resolves stranded x := by
  obtain ⟨entry, listed, path⟩ := reachable
  induction path with
  | refl =>
    obtain ⟨asset, isAsset⟩ := indexed entry listed
    have isRoot := Index.exists_root_of_entry listed isAsset
    rw [← Index.roots_of_planTarget success] at isRoot
    obtain ⟨root, known⟩ := isRoot
    exact .inl ⟨entry.asset, root, known, grounded_of_entry success listed known, .refl⟩
  | @tail y z path resolves ih =>
    rcases ih with ⟨loader, root, known, grounded, walked⟩ | ⟨loader, stranded, strands, leads⟩
    · -- a root that belongs to a group or strands another is followed by that one
      have follow {other : Root} (isRoot : p.root? z = some other)
          (either : p.Grounded z ∨ p.LeavesOut i loader z) :
          (∃ loader root, p.root? loader = some root ∧ p.Grounded loader ∧
            ReflTransGen (i.Enters p.roots loader root) loader z) ∨
          ∃ loader stranded, p.Strands i loader stranded ∧ ReflTransGen i.Resolves stranded z := by
        by_cases onward : p.Grounded z
        · exact .inl ⟨z, other, isRoot, onward, .refl⟩
        · exact .inr ⟨loader, z, ⟨grounded, onward, either.resolve_left onward⟩, .refl⟩
      obtain ⟨link, member, resolved⟩ := resolves
      cases starts : (i.triggersOf y link.dependency z).isEmpty with
      | false =>
        obtain ⟨other, isRoot⟩ := root_of_reachable_boundary success inside ⟨entry, listed, path⟩
          member resolved starts
        exact follow isRoot
          (grounded_or_leavesOut success inside known grounded walked member resolved starts)
      | true =>
        have goesOn : i.Enters p.roots loader root y z ∨ _ :=
          Index.enter_or_reuse_of_synchronous ⟨link, member, resolved, starts⟩
        rcases goesOn with enters | ⟨reuses, other, isRoot⟩
        · exact .inl ⟨loader, root, known, grounded, walked.tail enters⟩
        · exact follow isRoot
            (.inr (.reused (Index.mem_reusedRoots.2 ⟨root, known, y, walked, reuses⟩)))
    · exact .inr ⟨loader, stranded, strands, leads.tail resolves⟩

/-- A root that belongs to no group lies behind one that a root of a group leads to in one of the
three ways. -/
theorem exists_strands (indexed : ∀ entry ∈ entries, ∃ asset, i.asset? entry.asset = some asset)
    (known : p.root? key = some root) (ungrounded : ¬p.Grounded key) :
    ∃ loader stranded, p.Strands i loader stranded ∧ ReflTransGen i.Resolves stranded key := by
  have isRoot := known
  rw [root?, Index.roots_of_planTarget success] at isRoot
  obtain ⟨created, _⟩ := Index.get?_roots_eq_some_iff.1 isRoot
  obtain ⟨c, listed, rfl⟩ := List.mem_map.1 created
  rcases List.mem_append.1 listed with listed | listed
  · obtain ⟨entry, member, rfl⟩ := List.mem_map.1 listed
    exact absurd (grounded_of_entry success member known) ungrounded
  · obtain ⟨b, member, rfl⟩ := List.mem_map.1 listed
    obtain ⟨reachable, link, isLink, resolved, sameDependency, triggers, starts⟩ :=
      Index.mem_boundaries.1 member
    rw [triggers, sameDependency] at starts
    rcases reached_or_stranded success inside indexed (Index.mem_reachable.1 reachable) with
      ⟨loader, root, known, grounded, walked⟩ | ⟨loader, stranded, strands, leads⟩
    · have leavesOut := (grounded_or_leavesOut success inside known grounded walked isLink resolved
        starts).resolve_left ungrounded
      exact ⟨loader, b.target, ⟨grounded, ungrounded, leavesOut⟩, .refl⟩
    · exact ⟨loader, stranded, strands, leads.tail ⟨link, isLink, resolved⟩⟩

end Walking

/-! Every bundle to write is of some root. -/

/-- Each manual bundle is one of the first plan that may have got more consumers. -/
def JoinsManual (p q : Plan) : Prop :=
  ∀ key b, q.manualBundles.get? key = some b →
    ∃ old, p.manualBundles.get? key = some old ∧ ∀ c ∈ old.consumers, c ∈ b.consumers

theorem JoinsManual.of_eq (same : q.manualBundles = p.manualBundles) : JoinsManual p q := by
  intro key b found
  rw [same] at found
  exact ⟨b, found, fun _ consumer => consumer⟩

theorem JoinsManual.trans {r : Plan} (first : JoinsManual p q) (second : JoinsManual q r) :
    JoinsManual p r := by
  intro key b found
  obtain ⟨middle, found, grows⟩ := second key b found
  obtain ⟨old, found, before⟩ := first key middle found
  exact ⟨old, found, fun c consumer => grows c (before c consumer)⟩

theorem joinsManual_copyReused (p : Plan) (reused : AssetKey) (buckets : Buckets)
    (nested : List AssetKey) (outgoing : List BundleEdge) (reuser : AssetKey) :
    JoinsManual p (p.copyReused reused buckets nested outgoing reuser) := by
  have rewired : JoinsManual p (p.rewired reused buckets nested outgoing reuser) := by
    intro key b found
    unfold Plan.rewired at found
    rw [KeyMap.get?_map] at found
    obtain ⟨old, before, rfl⟩ := Option.map_eq_some_iff.1 found
    refine ⟨old, before, ?_⟩
    intro c consumer
    split
    · exact KeySet.mem_insert.2 (.inr consumer)
    · exact consumer
  rw [copyReused_eq]
  split
  · refine rewired.trans (.of_eq ?_)
    exact (Packs.foldl (fun p (b : SharedBundle) =>
      packs_packAll p reuser b.fileType b.assets.toList) _ _).manualBundles
  · exact rewired.trans (.of_eq rfl)

theorem Removes.joinsManual (removes : p.Removes i group q) : JoinsManual p q := by
  rcases removes.cases with ⟨place, b, found, _, pruned⟩ | ⟨reused, reusers, _, _, pruned⟩
  · refine JoinsManual.of_eq ((packs_prune pruned).manualBundles.trans ?_)
    unfold removeShared
    rw [found]
    exact (packs_packAll_each p _ b.fileType b.assets.toList).manualBundles
  · refine JoinsManual.trans ?_ (.of_eq (packs_prune pruned).manualBundles)
    refine removeReused_induction (fun q => JoinsManual p q.withGroups) (.of_eq rfl) ?_
    intro q joins reuser _
    exact joins.trans (joinsManual_copyReused q reused _ _ _ reuser)

/-- Some root loads a manual bundle. -/
theorem exists_consumer_of_manual (success : (i.planTarget config entries).result = .ok p)
    {manual : ManualKey} {b : ManualBundle} (found : p.manualBundles.get? manual = some b) :
    ∃ c ∈ b.consumers, ∃ root, p.root? c = some root := by
  obtain ⟨_, _, walked, reach, packing, extracted, e, placed, walks, consumed, moved, shared,
    limited⟩ := Index.planTarget_ok success
  have empty : walked.manualBundles = ∅ := by rw [(Index.walkedPlan_ok walks).1]; rfl
  obtain ⟨extraction, rfl⟩ := extractManualBundles_ok moved
  have follows := Extraction.follows_extraction empty extraction
  obtain ⟨_, run⟩ := removesIn_of_limitRequests limited
  have joins : JoinsManual placed p := run.keeps (motive := JoinsManual placed)
    (fun _ _ _ joins removes => joins.trans removes.joinsManual) (.of_eq rfl)
  obtain ⟨old, before, grows⟩ := joins manual b found
  rw [manualBundles_shareAssets shared] at before
  obtain ⟨x, has⟩ := follows.filled manual old before
  rw [← Extraction.bundleAt_of_get? before, follows.assets] at has
  obtain ⟨c, takes⟩ := exists_extractable_of_manualKeyOf? has
  have consumer := (follows.consumers manual c).2 ⟨x, has, takes⟩
  rw [Extraction.bundleAt_of_get? before] at consumer
  obtain ⟨_, root, known, _⟩ := mem_extractableConsumers.1 takes
  refine ⟨c, grows c consumer, root, ?_⟩
  rw [root?, Index.roots_of_planTarget success]
  rw [(Index.walkedPlan_ok walks).1] at known
  exact known

theorem loadsOrigin_iff_exists {origin : BundleOrigin} :
    p.LoadsOrigin group origin ↔ ∃ key, origin.Of key ∧ key ∈ p.members group := by
  cases origin with
  | bucket owner fileType => simp [LoadsOrigin, BundleOrigin.Of]
  | loaded fileType consumers => rfl

theorem exists_root_of_planned (success : (i.planTarget config entries).result = .ok p)
    {origin : BundleOrigin} {planned : Except Fault Bundle}
    (listed : (origin, planned) ∈ p.plannedBundles i config) :
    ∃ key root, origin.Of key ∧ p.root? key = some root := by
  cases origin with
  | bucket owner fileType =>
    obtain ⟨root, _, known, _⟩ := mem_plannedBundles_bucket.1 listed
    exact ⟨owner, root, rfl, known⟩
  | loaded fileType consumers =>
    rcases mem_plannedBundles_loaded.1 listed with ⟨b, live, _, rfl, _⟩ | ⟨_, b, found, _, rfl, _⟩
    · obtain ⟨placed, places, limited⟩ := Index.places_of_planTarget success
      obtain ⟨well, several⟩ := sharesWell_of_places places
      obtain ⟨well, several⟩ :=
        sharesWell_limitRequests well several (rootsReuse_of_places places) limited
      obtain ⟨c, consumer⟩ : ∃ c, c ∈ b.consumers := by
        have many : 0 < b.consumers.toList.length := Nat.lt_of_lt_of_le Nat.two_pos (several b live)
        exact List.exists_mem_of_length_pos many
      obtain ⟨root, known, _⟩ := (well.fit b (List.mem_filter.1 live).1).consumers c consumer
      exact ⟨c, root, consumer, known⟩
    · obtain ⟨c, consumer, root, known⟩ := exists_consumer_of_manual success found
      exact ⟨c, root, consumer, known⟩

end Plan

/-! Where the bundles of a graph come from, and which groups contain them. -/

namespace BundleGraph

variable {g next : BundleGraph} {i : Index} {config : Config} {key : String} {n : NodeId}

theorem mem_bundles {b : Bundle} : b ∈ g.bundles ↔ ∃ n, g.bundleAt? n = some b := by
  simp only [bundles, List.mem_filterMap, bundleAt?_eq_some_iff, ← List.mem_iff_getElem?]
  constructor
  · rintro ⟨node, listed, isBundle⟩
    cases node with
    | root => cases isBundle
    | group => cases isBundle
    | bundle other =>
      cases isBundle
      exact listed
  · intro listed
    exact ⟨_, listed, rfl⟩

theorem WellKeyed.mem_groupsContaining (keyed : g.WellKeyed) (found : g.keys[n]? = some key)
    {group : BundleGroup} :
    group ∈ g.groupsContaining key ↔
      ∃ m, ⟨m, n, .bundle⟩ ∈ g.edges ∧ g.groupAt? m = some group := by
  unfold groupsContaining
  rw [keyed.nodeOfKey?_eq_some_iff.2 found]
  simp only [List.mem_filterMap, incoming, List.mem_map, List.mem_filter, decide_eq_true_eq]
  constructor
  · rintro ⟨m, ⟨⟨_, _, _⟩, ⟨listed, rfl, rfl⟩, rfl⟩, isGroup⟩
    exact ⟨_, listed, isGroup⟩
  · rintro ⟨m, listed, isGroup⟩
    exact ⟨m, ⟨_, ⟨listed, rfl, rfl⟩, rfl⟩, isGroup⟩

theorem mem_keys_addBundle {bundle : Bundle} (success : g.addBundle bundle = .ok (next, n))
    (listed : key ∈ next.keys) : key ∈ g.keys ∨ bundle.id = key := by
  unfold addBundle at success
  split at success
  · cases success
    simpa [keys, addNode, Node.key, eq_comm] using listed
  · split at success
    · rename_i isBundle
      split at success
      · cases success
        unfold keys at listed
        rw [keys_merge isBundle bundle] at listed
        exact .inl listed
      · cases success
    · cases success

theorem mem_keys_addBundles {planned : List (BundleOrigin × Except Fault Bundle)}
    {written : List WrittenBundle} (success : addBundles planned g = (next, .ok written))
    (listed : key ∈ next.keys) :
    key ∈ g.keys ∨ ∃ origin bundle, (origin, .ok bundle) ∈ planned ∧ bundle.id = key := by
  induction planned generalizing g written with
  | nil =>
    cases success
    exact .inl listed
  | cons entry rest ih =>
    obtain ⟨origin, planned⟩ := entry
    obtain ⟨bundle, middle, node, others, rfl, stored, result, _⟩ := addBundles_cons_ok success
    rcases ih result with old | ⟨other, b, later, same⟩
    · rcases mem_keys_addBundle stored old with before | same
      · exact .inl before
      · exact .inr ⟨origin, bundle, List.mem_cons_self, same⟩
    · exact .inr ⟨other, b, List.mem_cons_of_mem _ later, same⟩

theorem mem_keys_writeGroups {w : WrittenPlan} {roots : List AssetKey}
    {groups : KeyMap AssetKey NodeId} (success : writeGroups w roots g = (next, .ok groups))
    (listed : key ∈ next.keys) : key ∈ g.keys ∨ IsGroupId key := by
  induction roots generalizing g groups with
  | nil =>
    cases success
    exact .inl listed
  | cons r roots ih =>
    obtain ⟨root, middle, node, others, known, made, result, _⟩ := writeGroups_cons_ok success
    rcases ih result with old | isGroup
    · unfold writeGroup at made
      obtain ⟨rfl, _⟩ := Prod.mk.inj made
      rw [keys_linkAll] at old
      split at old
      · exact .inl old
      · simp only [addNode, keys, List.map_append, List.mem_append, List.map_cons, List.map_nil,
          List.mem_singleton] at old
        rcases old with before | rfl
        · exact .inl before
        · exact .inr (Plan.isGroupId_groupId w.plan root)
    · exact .inr isGroup

/-- Plans are written one after the other. -/
theorem writePlans_cons_ok {p : Plan} {plans : List Plan}
    (ok : (Bundler.writePlans i config (p :: plans) g).2.result = .ok ()) :
    ∃ (s : Inscription) (filled grouped next : BundleGraph), s.written.plan = p ∧
      s.WritesIn i config g filled grouped next ∧
      (Bundler.writePlans i config plans next).2.result = .ok () ∧
      (Bundler.writePlans i config (p :: plans) g).1 =
        (Bundler.writePlans i config plans next).1 := by
  rw [Bundler.writePlans] at ok ⊢
  simp only [] at ok ⊢
  split at ok
  · rename_i failed
    cases failed.symm.trans ok
  · rename_i wrote
    obtain ⟨_, _, rest⟩ := Report.result_bind_eq_ok.1 ok
    obtain ⟨s, filled, grouped, same, writes⟩ := writePlan_ok_iff.1 wrote
    exact ⟨s, filled, grouped, _, same, writes, rest, rfl⟩

/-- Each of the plans was written at some time, and the graph has only grown since. All its keys are
those it had, ids of groups and ids of bundles that a plan was to write. -/
theorem writePlans_each {plans : List Plan} (keyed : g.WellKeyed)
    (ok : (Bundler.writePlans i config plans g).2.result = .ok ()) :
    Grows g (Bundler.writePlans i config plans g).1 ∧
    (∀ e ∈ g.edges, e ∈ (Bundler.writePlans i config plans g).1.edges) ∧
    (∀ p ∈ plans, ∃ (s : Inscription) (before filled grouped after : BundleGraph),
      s.written.plan = p ∧ before.WellKeyed ∧ s.WritesIn i config before filled grouped after ∧
      Grows after (Bundler.writePlans i config plans g).1 ∧
      ∀ e ∈ after.edges, e ∈ (Bundler.writePlans i config plans g).1.edges) ∧
    ∀ key ∈ (Bundler.writePlans i config plans g).1.keys,
      key ∈ g.keys ∨ IsGroupId key ∨ ∃ p ∈ plans, ∃ origin, p.WritesAs i config origin key := by
  induction plans generalizing g with
  | nil =>
    refine ⟨.refl keyed, fun e listed => listed, ?_, fun key listed => .inl listed⟩
    intro p listed
    cases listed
  | cons p plans ih =>
    obtain ⟨s, filled, grouped, next, same, writes, rest, result⟩ := writePlans_cons_ok ok
    rw [result]
    obtain ⟨grows, _, edges⟩ := writes.standsIn keyed
    obtain ⟨later, laterEdges, others, origins⟩ := ih grows.keyed rest
    refine ⟨grows.trans later, ?_, ?_, ?_⟩
    · intro e listed
      exact laterEdges e ((edges e).2 (.inl listed))
    · intro q listed
      rcases List.mem_cons.1 listed with rfl | listed
      · exact ⟨s, g, filled, grouped, _, same, keyed, writes, later, laterEdges⟩
      · exact others q listed
    · intro key listed
      rcases origins key listed with old | isGroup | ⟨q, isPlan, origin, made⟩
      · rw [writes.last, keys_linkAll, keys_linkAll] at old
        rcases mem_keys_writeGroups writes.groups old with filledKey | isGroup
        · rcases mem_keys_addBundles writes.bundles filledKey with before | ⟨origin, b, made⟩
          · exact .inl before
          · rw [same] at made
            exact .inr (.inr ⟨p, List.mem_cons_self, origin, b, made⟩)
        · exact .inr (.inl isGroup)
      · exact .inr (.inl isGroup)
      · exact .inr (.inr ⟨q, List.mem_cons_of_mem _ isPlan, origin, made⟩)

end BundleGraph

theorem WrittenPlan.loads_iff {w : WrittenPlan} {c : WrittenBundle} {group : AssetKey} :
    w.Loads group c ↔ w.plan.LoadsOrigin group c.origin := by
  unfold WrittenPlan.Loads
  cases c.origin with
  | bucket root fileType => rfl
  | loaded fileType consumers => rfl

/-- Once a plan is written, an edge leads from each of its groups to every bundle that it loads. -/
theorem Inscription.WritesIn.leads {s : Inscription} {i : Index} {config : Config}
    {g filled grouped next : BundleGraph} (writes : s.WritesIn i config g filled grouped next)
    (keyed : g.WellKeyed) (assigned : s.written.plan.Assigned) {group : AssetKey}
    (isRoot : group ∈ s.written.plan.groupRoots) {origin : BundleOrigin} {key : String}
    (written : s.written.plan.WritesAs i config origin key)
    (loads : s.written.plan.LoadsOrigin group origin) :
    ∃ m n root, ⟨m, n, .bundle⟩ ∈ next.edges ∧
      next.keys[m]? = some (s.written.plan.groupId root) ∧ next.keys[n]? = some key := by
  obtain ⟨grows, stands, edges⟩ := writes.standsIn keyed
  obtain ⟨bundle, planned, rfl⟩ := written
  obtain ⟨c, isMade, rfl, named⟩ := exists_written writes.bundles planned
  obtain ⟨m, isGroup⟩ := stands.allGroups group isRoot
  obtain ⟨_, root, known, groupKey⟩ := stands.groups group m isGroup
  obtain ⟨_, bundleKey⟩ := stands.bundles c isMade
  rw [named] at bundleKey
  have asks := stands.asks_of_loads grows.keyed assigned isRoot known groupKey isMade
    (WrittenPlan.loads_iff.2 loads)
  have apart : m ≠ c.node := by
    rintro rfl
    have same := Option.some_inj.1 (groupKey.symm.trans bundleKey)
    exact not_isGroupId_of_isDigest (Plan.isDigest_of_planned planned)
      (same ▸ Plan.isGroupId_groupId _ root)
  exact ⟨m, c.node, root, (edges _).2 (.inr ⟨asks, apart⟩), groupKey, bundleKey⟩

namespace Bundler

variable {config : Config} {g : AssetGraph} {b : Build}

/-- Every plan of a build is that of entries which are assets of the graph. -/
theorem entries_of_build (success : (build config g).result = .ok b) {p : Plan}
    (isPlan : p ∈ b.plans) :
    ∃ entries, ((Index.ofGraph g).planTarget config entries).result = .ok p ∧
      ∀ entry ∈ entries, ∃ asset, (Index.ofGraph g).asset? entry.asset = some asset := by
  obtain ⟨_, plans, entered, found, rfl⟩ := build_eq_ok_iff.1 success
  obtain ⟨entry, listed, made⟩ := exists_of_mem_result found isPlan
  exact ⟨entry.2, Report.result_mapFault.1 made,
    Index.entry_indexed entered (KeyMap.get?_eq_some_iff.2 listed)⟩

theorem assigned_of_build (built : (build config g).result = .ok b) {p : Plan}
    (isPlan : p ∈ b.plans) : p.Assigned := by
  obtain ⟨entries, planned⟩ := (plans_of_build built).2 p isPlan
  exact Plan.assigned_of_planTarget planned

section Contained

variable {written : Bundle} (success : (bundle config g .empty).2.result = .ok ())
  (built : (build config g).result = .ok b)
  (isBundle : written ∈ (bundle config g .empty).1.bundles)

include success built

/-- The keys and edges of the graph are those that writing the plans left. -/
theorem writePlans_of_bundle :
    (writePlans (.ofGraph g) config b.plans .empty).2.result = .ok () ∧
      (bundle config g .empty).1.keys = (writePlans (.ofGraph g) config b.plans .empty).1.keys ∧
      (bundle config g .empty).1.edges =
        (writePlans (.ofGraph g) config b.plans .empty).1.edges := by
  obtain ⟨other, sameBuild, wrote⟩ := bundle_ok_iff.1 success
  cases built.symm.trans sameBuild
  have final := fst_bundle built wrote
  rw [(plans_of_build built).1] at final wrote
  refine ⟨wrote, ?_, ?_⟩
  · rw [final]
    rfl
  · rw [final]

/-- A group has what it loads in some plan. -/
theorem contained_of_loads {p : Plan} (isPlan : p ∈ b.plans) {origin : BundleOrigin} {id : String}
    (made : p.WritesAs (.ofGraph g) config origin id) {group : AssetKey}
    (isRoot : group ∈ p.groupRoots) (loads : p.LoadsOrigin group origin) :
    (bundle config g .empty).1.groupsContaining id ≠ [] := by
  obtain ⟨_, _, _, _, keyed, _⟩ := bundle_spec success
  obtain ⟨wrote, sameKeys, sameEdges⟩ := writePlans_of_bundle success built
  obtain ⟨_, _, each, _⟩ := writePlans_each wellKeyed_empty wrote
  obtain ⟨s, before, filled, grouped, after, rfl, beforeKeyed, writes, grows, more⟩ := each p isPlan
  obtain ⟨m, n, root, edge, groupKey, bundleKey⟩ :=
    writes.leads beforeKeyed (assigned_of_build built isPlan) isRoot made loads
  have bundleKey := grows.keeps bundleKey
  have groupKey := grows.keeps groupKey
  rw [← sameKeys] at groupKey bundleKey
  obtain ⟨found, groupAt, _⟩ := keyed.exists_groupAt? groupKey (Plan.isGroupId_groupId _ root)
  refine List.ne_nil_of_mem ((keyed.mem_groupsContaining bundleKey).2 ⟨m, ?_, groupAt⟩)
  rw [sameEdges]
  exact more _ edge

include isBundle

/-- Every bundle is one that a plan was to write. -/
theorem exists_plan_of_bundle :
    ∃ p ∈ b.plans, ∃ origin, p.WritesAs (.ofGraph g) config origin written.id := by
  obtain ⟨_, _, _, _, keyed, _⟩ := bundle_spec success
  obtain ⟨wrote, sameKeys, _⟩ := writePlans_of_bundle success built
  obtain ⟨_, _, _, origins⟩ := writePlans_each wellKeyed_empty wrote
  obtain ⟨n, bundleAt⟩ := mem_bundles.1 isBundle
  have isKey := List.mem_of_getElem? (getElem?_keys_of_bundleAt? bundleAt)
  have digest : Digest.IsDigest written.id :=
    keyed.named _ (List.mem_of_getElem? (bundleAt?_eq_some_iff.1 bundleAt))
  rcases origins written.id (sameKeys ▸ isKey) with start | isGroup | made
  · rw [List.mem_singleton.1 start] at digest
    exact absurd digest not_isDigest_rootKey
  · exact absurd isGroup (not_isGroupId_of_isDigest digest)
  · exact made

/-- A bundle that a group has is one that the group loads in some plan. -/
theorem exists_loads_of_contained
    (some : (bundle config g .empty).1.groupsContaining written.id ≠ []) :
    ∃ p ∈ b.plans, ∃ origin, p.WritesAs (.ofGraph g) config origin written.id ∧
      ∃ group ∈ p.groupRoots, p.LoadsOrigin group origin := by
  obtain ⟨other, ss, sameBuild, plans, keyed, stands, edges⟩ := bundle_spec success
  cases built.symm.trans sameBuild
  obtain ⟨n, bundleAt⟩ := mem_bundles.1 isBundle
  have isKey := getElem?_keys_of_bundleAt? bundleAt
  obtain ⟨group, listed⟩ := List.exists_mem_of_ne_nil _ some
  obtain ⟨m, edge, groupAt⟩ := (keyed.mem_groupsContaining isKey).1 listed
  obtain ⟨⟨s, isWritten, asks⟩, _⟩ := (edges _).1 edge
  have isPlan : s.written.plan ∈ b.plans := plans ▸ List.mem_map_of_mem isWritten
  rcases (stands s isWritten).loadEdge_cases asks with rfl | ⟨key, root, isNode, known, reached⟩
  · cases keyed.root.symm.trans (groupAt?_eq_some_iff.1 groupAt)
  · obtain ⟨isRoot, _⟩ := (stands s isWritten).groups key m isNode
    have own := (assigned_of_build built isPlan).mem_members_self isRoot
    obtain ⟨c, isMade, rfl, loads⟩ := (WrittenPlan.mem_groupNodes own).1 reached
    obtain ⟨writes, named⟩ := (stands s isWritten).bundles c isMade
    rw [← Option.some_inj.1 (isKey.symm.trans named)] at writes
    exact ⟨s.written.plan, isPlan, c.origin, writes, key, isRoot, WrittenPlan.loads_iff.1 loads⟩

/-- A bundle is in a group exactly if a group of some plan loads it. -/
theorem contained_iff :
    (bundle config g .empty).1.groupsContaining written.id ≠ [] ↔
      ∃ p ∈ b.plans, ∃ origin, p.WritesAs (.ofGraph g) config origin written.id ∧
        ∃ group ∈ p.groupRoots, p.LoadsOrigin group origin := by
  constructor
  · exact exists_loads_of_contained success built isBundle
  · rintro ⟨p, isPlan, origin, made, group, isRoot, loads⟩
    exact contained_of_loads success built isPlan made isRoot loads

end Contained

end Bundler

/-- Bundles in no group, where bundling into an empty graph succeeds. Every bundle is one that some
plan was to write for some root. It is in no group exactly if no root of such a bundle is loaded in
any group. Each of these roots then lies behind a root that belongs to no group although one that
does leads to it: by a dependency that isolates it while it is inline for others, from a single
file, or through reuse. -/
theorem bundles_in_no_group (config : Config) (g : AssetGraph)
    (success : (Bundler.bundle config g .empty).2.result = .ok ()) :
    ∃ build, (Bundler.build config g).result = .ok build ∧
      ∀ b ∈ (Bundler.bundle config g .empty).1.bundles,
        (∃ p ∈ build.plans, ∃ origin key root, p.WritesAs (.ofGraph g) config origin b.id ∧
          origin.Of key ∧ p.root? key = some root) ∧
        ((Bundler.bundle config g .empty).1.groupsContaining b.id = [] ↔
          ∀ p ∈ build.plans, ∀ origin key, p.WritesAs (.ofGraph g) config origin b.id →
            origin.Of key → ∀ group ∈ p.groupRoots, ¬p.LoadsIn group key) ∧
        ((Bundler.bundle config g .empty).1.groupsContaining b.id = [] →
          ∀ p ∈ build.plans, ∀ origin key root, p.WritesAs (.ofGraph g) config origin b.id →
            origin.Of key → p.root? key = some root →
            ∃ loader stranded, p.Strands (.ofGraph g) loader stranded ∧
              ReflTransGen (Index.ofGraph g).Resolves stranded key) := by
  obtain ⟨build, built, _⟩ := Bundler.bundle_ok_iff.1 success
  refine ⟨build, built, ?_⟩
  intro b isBundle
  obtain ⟨p, isPlan, origin, writes⟩ := Bundler.exists_plan_of_bundle success built isBundle
  have contained := Bundler.contained_iff success built isBundle
  have unloaded : (Bundler.bundle config g .empty).1.groupsContaining b.id = [] ↔
      ∀ p ∈ build.plans, ∀ origin key, p.WritesAs (.ofGraph g) config origin b.id →
        origin.Of key → ∀ group ∈ p.groupRoots, ¬p.LoadsIn group key := by
    rw [← not_iff_not, ← ne_eq, contained]
    simp only [Plan.loadsOrigin_iff_exists, Plan.mem_members]
    push Not
    constructor
    · rintro ⟨p, isPlan, origin, writes, group, isGroup, key, isOf, loads⟩
      exact ⟨p, isPlan, origin, key, writes, isOf, group, isGroup, loads⟩
    · rintro ⟨p, isPlan, origin, key, writes, isOf, group, isGroup, loads⟩
      exact ⟨p, isPlan, origin, writes, group, isGroup, key, isOf, loads⟩
  refine ⟨?_, unloaded, ?_⟩
  · obtain ⟨entries, planned, _⟩ := Bundler.entries_of_build built isPlan
    obtain ⟨bundle, listed, sameId⟩ := writes
    obtain ⟨key, root, isOf, known⟩ := Plan.exists_root_of_planned planned listed
    exact ⟨p, isPlan, origin, key, root, ⟨bundle, listed, sameId⟩, isOf, known⟩
  · intro none p isPlan origin key root writes isOf known
    obtain ⟨entries, planned, indexed⟩ := Bundler.entries_of_build built isPlan
    refine Plan.exists_strands planned Index.resolvesInside_ofGraph indexed known ?_
    rintro ⟨group, own⟩
    have assigned := Plan.assigned_of_planTarget planned
    have isGroup := own
    rw [← assigned.groupsOf_eq] at isGroup
    exact unloaded.1 none p isPlan origin key writes isOf group
      (Plan.mem_groupsOf_withGroups.1 isGroup).1 ⟨key, own, .refl⟩

/-- The entry needs `b` at once, which is a root since `c` loads it in parallel. So it is reused and
joins no group, and neither does `d`, which it loads in parallel. -/
def reusedInParallel : AssetGraph :=
  let dependency (id : String) (priority : Priority) : AssetGraph.Node :=
    .dependency { id, specifier := id, priority }
  { nodes := [.root, .dependency { id := "entry", specifier := "index", isEntry := true },
      .asset { id := "index" }, dependency "index to b" .sync, .asset { id := "b" },
      dependency "b to c" .sync, .asset { id := "c" }, dependency "c to b" .parallel,
      dependency "b to d" .parallel, .asset { id := "d" }]
    edges := [(0, 1), (1, 2), (2, 3), (3, 4), (4, 5), (5, 6), (6, 7), (7, 4), (4, 8), (8, 9)] }

theorem reusedInParallel_facts :
    (Bundler.bundle {} reusedInParallel .empty).2.result = .ok () ∧
      ∃ b ∈ (Bundler.bundle {} reusedInParallel .empty).1.bundles, b.assetIds = ["d"] ∧
        (Bundler.bundle {} reusedInParallel .empty).1.groupsContaining b.id = [] := by
  decide +kernel

/-- The bundle of `d` is written and never loaded. -/
theorem reusedInParallel_never_loaded :
    (Bundler.bundle {} reusedInParallel .empty).2.result = .ok () ∧
      ¬∀ b ∈ (Bundler.bundle {} reusedInParallel .empty).1.bundles,
        (Bundler.bundle {} reusedInParallel .empty).1.groupsContaining b.id ≠ [] := by
  obtain ⟨success, b, isBundle, _, none⟩ := reusedInParallel_facts
  exact ⟨success, fun loaded => loaded b isBundle none⟩

theorem reusedInParallel_strands :
    (Bundler.bundle {} reusedInParallel .empty).2.result = .ok () ∧
      ∃ build, (Bundler.build {} reusedInParallel).result = .ok build ∧
        ∃ p ∈ build.plans, ∃ loader stranded,
          p.Strands (.ofGraph reusedInParallel) loader stranded := by
  obtain ⟨success, b, isBundle, _, none⟩ := reusedInParallel_facts
  obtain ⟨build, built, each⟩ := bundles_in_no_group {} reusedInParallel success
  obtain ⟨⟨p, isPlan, origin, key, root, writes, isOf, known⟩, _, strands⟩ := each b isBundle
  obtain ⟨loader, stranded, strands, _⟩ := strands none p isPlan origin key root writes isOf known
  exact ⟨success, build, built, p, isPlan, loader, stranded, strands⟩

end CodeSplit
