import CodeSplit.Proofs.GroupListing

/-!
Bundling once more into the graph that was written. Every bundle of the plan finds itself under its
id and adds nothing to what is there, every group has its node, and every edge is present. So the
nodes and the edges stay as they are, and only the log of decisions grows.
-/
namespace CodeSplit

open BundleGraph

/-! Merging what has been merged. -/

/-- The texts ascend. -/
def InTextOrder (texts : List String) : Prop := InOrder (fun text => text) texts

theorem inTextOrder_arrange (texts : List String) : InTextOrder (arrange KeyOrder.before texts) :=
  inOrder_arrange texts

/-- What ascends already is left alone. -/
theorem InTextOrder.arrange_eq {texts : List String} (ordered : InTextOrder texts) :
    arrange KeyOrder.before texts = texts := by
  refine List.Perm.eq_of_pairwise ?_ (inTextOrder_arrange texts) ordered (perm_arrange _ texts)
  intro a b _ _ below above
  exact KeyOrder.total above below

namespace Bundle

variable {b c : Bundle}

/-- The first bundle has whatever merging the second would add. -/
structure Covers (b c : Bundle) : Prop where
  ordered : InTextOrder b.entryAssetIds
  entries : ∀ x ∈ c.entryAssetIds, x ∈ b.entryAssetIds
  main : b.mainEntryId = none → c.mainEntryId = none
  stable : c.needsStableName = true → b.needsStableName = true

theorem Covers.refl (ordered : InTextOrder b.entryAssetIds) : b.Covers b :=
  ⟨ordered, fun _ listed => listed, fun none => none, fun stable => stable⟩

theorem covers_merge (b c : Bundle) : (b.merge c).Covers c := by
  constructor
  case ordered => exact inTextOrder_arrange _
  case entries => exact fun _ listed => mem_entryAssetIds_merge.2 (.inr listed)
  case main =>
    intro none
    cases main : b.mainEntryId with
    | none => simpa [merge, main] using none
    | some x => simp [merge, main] at none
  case stable =>
    intro stable
    simp [merge, stable]

/-- Merging others does not undo it. -/
theorem Covers.merge (covers : b.Covers c) (d : Bundle) : (b.merge d).Covers c := by
  constructor
  case ordered => exact inTextOrder_arrange _
  case entries => exact fun x listed => mem_entryAssetIds_merge.2 (.inl (covers.entries x listed))
  case main =>
    intro none
    cases main : b.mainEntryId with
    | none => exact covers.main main
    | some x => simp [Bundle.merge, main] at none
  case stable =>
    intro stable
    simp [Bundle.merge, covers.stable stable]

theorem Covers.merge_eq (covers : b.Covers c) : b.merge c = b := by
  have entries : c.entryAssetIds.foldl
      (fun entries e => if e ∈ entries then entries else entries ++ [e]) b.entryAssetIds =
        b.entryAssetIds := by
    have known := covers.entries
    generalize c.entryAssetIds = others at known
    induction others with
    | nil => rfl
    | cons e others ih =>
      rw [List.foldl_cons, if_pos (known e List.mem_cons_self)]
      exact ih fun x listed => known x (List.mem_cons_of_mem _ listed)
  have main : (b.mainEntryId <|> c.mainEntryId) = b.mainEntryId := by
    cases known : b.mainEntryId with
    | none => rw [covers.main known]; rfl
    | some x => rfl
  have stable : (b.needsStableName || c.needsStableName) = b.needsStableName := by
    cases known : c.needsStableName with
    | false => exact Bool.or_false _
    | true => rw [covers.stable known]; rfl
  unfold Bundle.merge
  simp only [entries, covers.ordered.arrange_eq, main, stable]

end Bundle

/-- The bundles of a plan have at most one entry point each. -/
theorem Plan.inOrder_of_planned {p : Plan} {i : Index} {config : Config} {origin : BundleOrigin}
    {b : Bundle} (listed : (origin, .ok b) ∈ p.plannedBundles i config) :
    InTextOrder b.entryAssetIds := by
  cases origin with
  | bucket root fileType =>
    obtain ⟨_, _, _, _, _, made⟩ := mem_plannedBundles_bucket.1 listed
    rw [(bucketBundle_ok made.symm).2.2.2]
    split
    · exact List.pairwise_singleton _ _
    · exact List.Pairwise.nil
  | loaded fileType consumers =>
    rcases mem_plannedBundles_loaded.1 listed with ⟨_, _, _, _, made⟩ | ⟨_, _, _, _, _, made⟩
    · rw [(sharedBundle_ok made.symm).2.2.2]
      exact List.Pairwise.nil
    · rw [(manualBundle_ok made.symm).2.2.2]
      exact List.Pairwise.nil

namespace BundleGraph

variable {g h next later : BundleGraph} {n m : NodeId} {b c : Bundle}

/-! Adding what is there. -/

/-- At the node is a bundle with the id and the assets of the given one, which it covers. -/
def HasBundle (g : BundleGraph) (n : NodeId) (b : Bundle) : Prop :=
  ∃ d, g.nodes[n]? = some (.bundle d) ∧ d.id = b.id ∧ d.assetIds = b.assetIds ∧ d.Covers b

theorem HasBundle.addBundle (has : g.HasBundle n b) (keyed : g.WellKeyed) :
    g.addBundle b = .ok (g, n) := by
  obtain ⟨d, isBundle, sameId, sameAssets, covers⟩ := has
  have found : g.nodeOfKey? b.id = some n :=
    keyed.nodeOfKey?_eq_some_iff.2 (getElem?_keys.2 ⟨_, isBundle, sameId⟩)
  obtain ⟨inside, same⟩ := List.getElem?_eq_some_iff.1 isBundle
  unfold BundleGraph.addBundle
  simp only [found, node?, isBundle, sameAssets, if_true, covers.merge_eq]
  rw [← same, List.set_getElem_self]

/-- A bundle that was added is there. -/
theorem hasBundle_addBundle (keyed : g.WellKeyed) (ordered : InTextOrder b.entryAssetIds)
    (success : g.addBundle b = .ok (next, n)) : next.HasBundle n b := by
  unfold BundleGraph.addBundle at success
  split at success
  · cases success
    exact ⟨b, List.getElem?_concat_length, rfl, rfl, .refl ordered⟩
  · rename_i place found
    split at success
    · rename_i existing isBundle
      split at success
      · rename_i sameAssets
        cases success
        obtain ⟨node, isNode, sameId⟩ := getElem?_keys.1 (keyed.nodeOfKey?_eq_some_iff.1 found)
        cases isBundle.symm.trans isNode
        exact ⟨_, List.getElem?_set_self (List.getElem?_eq_some_iff.1 isBundle).1, sameId,
          sameAssets, Bundle.covers_merge existing b⟩
      · cases success
    · cases success

/-- It stays there when others are added. -/
theorem HasBundle.after_addBundle (has : g.HasBundle n b)
    (success : g.addBundle c = .ok (next, m)) : next.HasBundle n b := by
  obtain ⟨d, isBundle, sameId, sameAssets, covers⟩ := has
  have inside := (List.getElem?_eq_some_iff.1 isBundle).1
  unfold BundleGraph.addBundle at success
  split at success
  · cases success
    exact ⟨d, (List.getElem?_append_left inside).trans isBundle, sameId, sameAssets, covers⟩
  · rename_i place _
    split at success
    · rename_i existing isOther
      split at success
      · cases success
        by_cases here : m = n
        · subst here
          cases isBundle.symm.trans isOther
          exact ⟨_, List.getElem?_set_self inside, sameId, sameAssets, covers.merge c⟩
        · exact ⟨d, (List.getElem?_set_ne here).trans isBundle, sameId, sameAssets, covers⟩
      · cases success
    · cases success

theorem HasBundle.of_extends (has : g.HasBundle n b) (more : Extends g h) : h.HasBundle n b := by
  obtain ⟨d, isBundle, rest⟩ := has
  exact ⟨d, bundleAt?_eq_some_iff.1 (more.bundleAt? (bundleAt?_eq_some_iff.2 isBundle)), rest⟩

section Planned

variable {planned : List (BundleOrigin × Except Fault Bundle)} {written : List WrittenBundle}

theorem HasBundle.after_addBundles (has : g.HasBundle n b)
    (success : addBundles planned g = (next, .ok written)) : next.HasBundle n b := by
  induction planned generalizing g written with
  | nil =>
    cases success
    exact has
  | cons entry rest ih =>
    obtain ⟨bundle, middle, node, others, _, stored, result, _⟩ := addBundles_cons_ok success
    exact ih (has.after_addBundle stored) result

/-- Adding bundles once more, to the graph as it came to be, finds each of them at its node. -/
theorem addBundles_again (keyed : g.WellKeyed)
    (digests : ∀ origin b, (origin, .ok b) ∈ planned → Digest.IsDigest b.id)
    (ordered : ∀ origin b, (origin, .ok b) ∈ planned → InTextOrder b.entryAssetIds)
    (success : addBundles planned g = (next, .ok written)) (laterKeyed : later.WellKeyed)
    (more : Extends next later) : addBundles planned later = (later, .ok written) := by
  induction planned generalizing g written with
  | nil =>
    cases success
    rfl
  | cons entry rest ih =>
    obtain ⟨origin, planned⟩ := entry
    obtain ⟨bundle, middle, node, others, rfl, stored, result, rfl⟩ := addBundles_cons_ok success
    obtain ⟨grows, _, _⟩ :=
      addBundle_spec keyed (digests origin bundle List.mem_cons_self) stored
    have rests := ih grows.keyed
      (fun origin b listed => digests origin b (List.mem_cons_of_mem _ listed))
      (fun origin b listed => ordered origin b (List.mem_cons_of_mem _ listed)) result
    have has : middle.HasBundle node bundle :=
      hasBundle_addBundle keyed (ordered origin bundle List.mem_cons_self) stored
    have again : later.addBundle bundle = .ok (later, node) :=
      ((has.after_addBundles result).of_extends more).addBundle laterKeyed
    rw [addBundles, show ((Except.ok bundle : Except Fault Bundle) >>= fun bundle =>
      (·, bundle.id) <$> later.addBundle bundle) = .ok ((later, node), bundle.id) from
        congrArg ((·, bundle.id) <$> ·) again]
    simp only [rests]
    rfl

end Planned

/-- Edges that are there, or would lead back to their start, are not added. -/
theorem linkAll_eq_self {edges : List Edge}
    (present : ∀ e ∈ edges, e.source ≠ e.target → e ∈ g.edges) : g.linkAll edges = g := by
  induction edges with
  | nil => rfl
  | cons e edges ih =>
    have same : g.link e.source e.target e.edgeType = g := by
      unfold link
      refine if_pos ?_
      by_cases apart : e.source = e.target
      · exact .inl apart
      · exact .inr (present e List.mem_cons_self apart)
    show (g.link e.source e.target e.edgeType).linkAll edges = g
    rw [same]
    exact ih fun f listed => present f (List.mem_cons_of_mem _ listed)

variable {w : WrittenPlan} {key : AssetKey} {root : Root}

/-- A group whose node leads to everything that it loads is found again. -/
theorem writeGroup_again (keyed : g.WellKeyed) (isNode : g.keys[n]? = some (w.plan.groupId root))
    (present : ∀ e ∈ w.groupEdges key root n, e.source ≠ e.target → e ∈ g.edges)
    (enters : ∃ entry, (g.bundlesInGroup (w.plan.groupId root) true).filter
      (fun b => decide (root.assetId ∈ b.entryAssetIds)) = [entry]) :
    g.writeGroup w key root = (g, .ok n) := by
  have found : g.addGroup (w.groupOf root) = (g, n) := by
    have known : g.nodeOfKey? (w.groupOf root).id = some n := keyed.nodeOfKey?_eq_some_iff.2 isNode
    rw [addGroup, known]
  have linked : g.linkAll (w.groupEdges key root n) = g := linkAll_eq_self present
  unfold WrittenPlan.groupEdges at linked
  obtain ⟨entry, single⟩ := enters
  have one : ((g.bundlesInGroup (w.groupOf root).id true).filter
      (fun b => decide (root.assetId ∈ b.entryAssetIds))).length = 1 := congrArg List.length single
  unfold writeGroup
  simp only [found, linked, one, if_true]

theorem writeGroups_again {roots : List AssetKey} {groups : KeyMap AssetKey NodeId}
    (distinct : roots.Nodup) (keyed : g.WellKeyed)
    (success : writeGroups w roots g = (next, .ok groups))
    (again : ∀ key root n, groups.get? key = some n → w.plan.root? key = some root →
      later.writeGroup w key root = (later, .ok n)) :
    writeGroups w roots later = (later, .ok groups) := by
  induction roots generalizing g groups with
  | nil =>
    cases success
    rfl
  | cons key roots ih =>
    obtain ⟨fresh, distinct⟩ := List.nodup_cons.1 distinct
    obtain ⟨root, middle, node, others, known, made, result, rfl⟩ := writeGroups_cons_ok success
    obtain ⟨grows, _, _⟩ := writeGroup_spec keyed made
    obtain ⟨_, each, _⟩ := writeGroups_spec grows.keyed distinct result
    have rests := ih distinct grows.keyed result (by
      intro other otherRoot n found
      refine again other otherRoot n ?_
      rw [KeyMap.get?_insert, if_neg]
      · exact found
      · rintro rfl
        exact fresh (each key n found).1)
    have first := again key root node (by rw [KeyMap.get?_insert, if_pos rfl]) known
    rw [writeGroups]
    simp only [known, first, rests]
    rfl

end BundleGraph

/-! Writing a plan again. -/

namespace Inscription

variable {s : Inscription} {i : Index} {config : Config} {filled grouped next later : BundleGraph}

/-- A plan that was written into an empty graph adds nothing to a graph with the same nodes and
edges. -/
theorem WritesIn.again (writes : s.WritesIn i config .empty filled grouped next)
    (writable : s.written.plan.Writable i) (differ : i.IdsDiffer)
    (sameNodes : later.nodes = next.nodes) (sameEdges : later.edges = next.edges) :
    later.writePlan i config s.written.plan =
      (later, .event (writtenEvent s.written s.groups)) := by
  obtain ⟨grows, stands, edges⟩ := writes.standsIn wellKeyed_empty
  have stored := writes.stored
  have sameKeys : later.keys = next.keys := congrArg (List.map Node.key) sameNodes
  have keyed : later.WellKeyed :=
    ⟨sameKeys ▸ grows.keyed.distinct, sameNodes ▸ grows.keyed.root, sameNodes ▸ grows.keyed.named⟩
  have moved : Grows next later := ⟨keyed, sameKeys ▸ List.prefix_refl _⟩
  have more : Extends next later :=
    ⟨sameNodes ▸ List.prefix_refl _, fun distinct => sameEdges ▸ distinct⟩
  have asked (e : Edge) (asks : s.Asks e) (apart : e.source ≠ e.target) : e ∈ later.edges :=
    sameEdges ▸ (edges e).2 (.inr ⟨asks, apart⟩)
  -- the bundles were added before the groups, behind which no bundle changes
  have bundles : addBundles (s.written.plan.plannedBundles i config) later =
      (later, .ok s.written.bundles) := by
    have groups := extends_writeGroups (w := s.written) s.written.plan.groupRoots filled
    rw [writes.groups] at groups
    refine addBundles_again wellKeyed_empty (fun _ _ listed => Plan.isDigest_of_planned listed)
      (fun _ _ listed => Plan.inOrder_of_planned listed) writes.bundles keyed (.trans ?_ more)
    rw [writes.last]
    exact (groups.trans (extends_linkAll _ _)).trans (extends_linkAll _ _)
  have groups : writeGroups s.written s.written.plan.groupRoots later = (later, .ok s.groups) := by
    obtain ⟨fills, _⟩ := addBundles_spec wellKeyed_empty
      (fun _ _ listed => Plan.isDigest_of_planned listed) writes.bundles
    refine writeGroups_again Plan.nodup_groupRoots fills.keyed writes.groups ?_
    intro key root n isGroup known
    obtain ⟨isRoot, _, sameRoot, isNode⟩ := stands.groups key n isGroup
    cases known.symm.trans sameRoot
    obtain ⟨m, lists⟩ := writes.lists writable differ isRoot known
    have listed : s.written.Lists later key root m :=
      ⟨moved.keeps lists.isNode, fun k => sameEdges ▸ lists.edges k⟩
    refine writeGroup_again keyed (moved.keeps isNode) ?_ ?_
    · exact fun e listed apart => asked e (.inl ⟨key, n, root, isGroup, known, listed⟩) apart
    · exact (stored.later moved more).exists_entry writable differ
        (writable.assigned.mem_members_self isRoot) listed known
  have loads : later.linkAll s.written.loadEdges = later :=
    linkAll_eq_self fun e listed => asked e (.inr (.inl listed))
  have links : later.linkAll s.links = later :=
    linkAll_eq_self fun e listed => asked e (.inr (.inr listed))
  unfold writePlan
  simp only [bundles, groups, loads, writes.links, links]

end Inscription

/-! One target. -/

theorem length_of_mapM {α β : Type} {f : α → Except Fault β} {xs : List α} {ys : List β}
    (success : xs.mapM f = .ok ys) : ys.length = xs.length := by
  induction xs generalizing ys with
  | nil =>
    cases success
    rfl
  | cons x xs ih =>
    rw [List.mapM_cons] at success
    obtain ⟨y, _, success⟩ := bind_eq_ok_iff.1 success
    obtain ⟨rest, others, success⟩ := bind_eq_ok_iff.1 success
    cases success
    rw [List.length_cons, List.length_cons, ih others]

namespace Index

variable {i : Index} {g : AssetGraph} {name : String}

/-- All entry dependencies of the graph are for the target of this name. -/
def OneTarget (g : AssetGraph) (name : String) : Prop :=
  ∀ e ∈ g.dependencies, e.2.isEntry = true → (e.2.target.getD {}).name = name

/-- Targets come from entries. -/
theorem name_of_foldl_update (entries : List Entry) (m : KeyMap String (List Entry))
    {sorted : List Entry}
    (found : (entries.foldl (fun m e => m.update e.target.name [] (· ++ [e])) m).get? name =
      some sorted) :
    (∃ e ∈ entries, e.target.name = name) ∨ ∃ before, m.get? name = some before := by
  induction entries generalizing m with
  | nil => exact .inr ⟨sorted, found⟩
  | cons e entries ih =>
    rcases ih _ found with ⟨f, listed, isName⟩ | ⟨before, known⟩
    · exact .inl ⟨f, List.mem_cons_of_mem _ listed, isName⟩
    · rw [KeyMap.get?_update] at known
      split at known
      · rename_i isName
        exact .inl ⟨e, List.mem_cons_self, isName⟩
      · exact .inr ⟨before, known⟩

theorem name_of_entriesByTarget (one : OneTarget g name) {m : KeyMap String (List Entry)}
    (success : i.entriesByTarget g = .ok m) {other : String} {entries : List Entry}
    (found : m.get? other = some entries) : other = name := by
  unfold entriesByTarget at success
  simp only [] at success
  split at success
  · cases success
  · obtain ⟨all, each, success⟩ := bind_eq_ok_iff.1 success
    cases success
    rcases name_of_foldl_update all ∅ found with ⟨e, listed, rfl⟩ | ⟨_, none⟩
    · obtain ⟨⟨n, d⟩, dependency, made⟩ := exists_of_mem_result each listed
      obtain ⟨isNode, isEntry⟩ := List.mem_filter.1 ((perm_arrange _ _).mem_iff.1 dependency)
      unfold entryOf at made
      split at made
      · cases made
        exact one _ isNode isEntry
      · cases made
    · cases none

end Index

namespace Bundler

variable {config : Config} {g : AssetGraph} {name : String}

/-- A graph with one target has one plan. -/
theorem plans_of_oneTarget (one : Index.OneTarget g name) {b : Build}
    (success : (build config g).result = .ok b) : b.plans.length ≤ 1 := by
  obtain ⟨entries, plans, entered, found, rfl⟩ := build_eq_ok_iff.1 success
  have named : ∀ key ∈ entries.keys, key = name := by
    intro key listed
    obtain ⟨_, known⟩ := KeyMap.mem_keys_iff.1 listed
    exact Index.name_of_entriesByTarget one entered known
  have short : entries.keys.length ≤ 1 := by
    have inside : entries.keys ⊆ [name] := fun key listed =>
      List.mem_singleton.2 (named key listed)
    exact entries.nodup_keys.length_le_of_subset inside
  unfold KeyMap.keys at short
  rw [List.length_map] at short
  rw [length_of_mapM found]
  exact short

/-- Writing the plans of a graph with one target once more changes neither nodes nor edges. -/
theorem writePlans_again (one : Index.OneTarget g name) {b : Build}
    (built : (build config g).result = .ok b) {written later : BundleGraph} {report : Report Unit}
    (wrote : writePlans b.index config b.plans .empty = (written, report))
    (ok : report.result = .ok ()) (sameNodes : later.nodes = written.nodes)
    (sameEdges : later.edges = written.edges) :
    (writePlans b.index config b.plans later).1 = later ∧
      (writePlans b.index config b.plans later).2.result = .ok () := by
  obtain ⟨sameIndex, planned⟩ := plans_of_build built
  have short := plans_of_oneTarget one built
  rcases plans : b.plans with _ | ⟨p, _ | ⟨q, rest⟩⟩
  · exact ⟨rfl, rfl⟩
  · obtain ⟨entries, success⟩ := planned p (plans ▸ List.mem_singleton_self p)
    rw [plans, sameIndex] at wrote
    simp only [writePlans] at wrote
    split at wrote
    · rename_i fault failed
      cases wrote
      cases failed.symm.trans ok
    · rename_i first
      obtain ⟨rfl, rfl⟩ := Prod.mk.inj wrote
      obtain ⟨s, filled, grouped, rfl, writes⟩ := writePlan_ok_iff.1 first
      have again := writes.again (Plan.writable_of_planTarget success) (Index.idsDiffer_ofGraph g)
        sameNodes sameEdges
      simp only [writePlans, sameIndex, again]
      exact ⟨rfl, rfl⟩
  · rw [plans] at short
    simp at short

end Bundler

/-! The log of decisions. -/

namespace DecisionLog

/-- Decisions that are numbered consecutively. -/
def numbered (start : Nat) (made : List (Phase × Decision.Kind)) : List Decision :=
  (made.zipIdx start).map fun e => ⟨e.2, e.1.1, e.1.2⟩

theorem pushAll_eq (log : DecisionLog) (made : List (Phase × Decision.Kind)) :
    log.pushAll made =
      ⟨log.nextSeq + made.length, log.decisions ++ numbered log.nextSeq made⟩ := by
  induction made generalizing log with
  | nil => simp [pushAll, numbered]
  | cons first made ih =>
    show (log.push first.1 first.2).pushAll made = _
    rw [ih]
    simp [push, numbered, Nat.add_assoc, Nat.add_comm 1]

theorem seq_numbered (start : Nat) (made : List (Phase × Decision.Kind)) :
    (numbered start made).map Decision.seq = List.range' start made.length := by
  rw [numbered, List.map_map]
  exact List.zipIdx_map_snd start made

/-- Other numbers for the same decisions. -/
theorem numbered_add (start more : Nat) (made : List (Phase × Decision.Kind)) :
    numbered (start + more) made =
      (numbered start made).map fun d => { d with seq := d.seq + more } := by
  rw [numbered, numbered, List.map_map, Nat.add_comm, ← List.map_snd_add_zipIdx_eq_zipIdx,
    List.map_map]
  rfl

/-- Decisions that are made twice get consecutive numbers. -/
theorem seq_numbered_twice (made : List (Phase × Decision.Kind)) :
    (numbered 0 made ++ numbered made.length made).map Decision.seq =
      List.range (made.length + made.length) := by
  have joined : List.range' 0 made.length ++ List.range' (0 + made.length) made.length =
      List.range' 0 (made.length + made.length) := List.range'_append_1
  rw [List.map_append, seq_numbered, seq_numbered, List.range_eq_range', ← joined, Nat.zero_add]

end DecisionLog

/-! Writing leaves the log alone. -/

namespace BundleGraph

variable {g next : BundleGraph} {w : WrittenPlan} {i : Index} {config : Config}

theorem decisions_addBundle {b : Bundle} {n : NodeId} (success : g.addBundle b = .ok (next, n)) :
    next.decisions = g.decisions := by
  unfold addBundle at success
  split at success
  · cases success
    rfl
  · split at success
    · split at success
      · cases success
        rfl
      · cases success
    · cases success

theorem decisions_addBundles {planned : List (BundleOrigin × Except Fault Bundle)}
    {written : List WrittenBundle} (success : addBundles planned g = (next, .ok written)) :
    next.decisions = g.decisions := by
  induction planned generalizing g written with
  | nil =>
    cases success
    rfl
  | cons entry rest ih =>
    obtain ⟨_, _, _, _, _, stored, result, _⟩ := addBundles_cons_ok success
    exact (ih result).trans (decisions_addBundle stored)

theorem decisions_linkAll (g : BundleGraph) (edges : List Edge) :
    (g.linkAll edges).decisions = g.decisions := by
  refine List.foldlRecOn (motive := fun (h : BundleGraph) => h.decisions = g.decisions) edges _ rfl
    ?_
  intro h same e _
  unfold link
  split
  · exact same
  · exact same

theorem decisions_writeGroup {key : AssetKey} {root : Root} {n : NodeId}
    (success : g.writeGroup w key root = (next, .ok n)) : next.decisions = g.decisions := by
  obtain ⟨rfl, _⟩ := Prod.mk.inj success
  rw [decisions_linkAll]
  split
  · rfl
  · rfl

theorem decisions_writeGroups {roots : List AssetKey} {groups : KeyMap AssetKey NodeId}
    (success : writeGroups w roots g = (next, .ok groups)) : next.decisions = g.decisions := by
  induction roots generalizing g groups with
  | nil =>
    cases success
    rfl
  | cons key roots ih =>
    obtain ⟨_, _, _, _, _, made, result, _⟩ := writeGroups_cons_ok success
    exact (ih result).trans (decisions_writeGroup made)

theorem decisions_writePlan {p : Plan} (ok : (g.writePlan i config p).2.result = .ok ()) :
    (g.writePlan i config p).1.decisions = g.decisions := by
  obtain ⟨s, filled, grouped, rfl, writes⟩ := writePlan_ok_iff.1 ok
  rw [writes.last, decisions_linkAll, decisions_linkAll, decisions_writeGroups writes.groups,
    decisions_addBundles writes.bundles]

end BundleGraph

namespace Bundler

variable {config : Config} {g : AssetGraph} {into : BundleGraph}

theorem decisions_writePlans {i : Index} {plans : List Plan}
    (ok : (writePlans i config plans into).2.result = .ok ()) :
    (writePlans i config plans into).1.decisions = into.decisions := by
  induction plans generalizing into with
  | nil => rfl
  | cons p plans ih =>
    simp only [writePlans] at ok ⊢
    split
    · rename_i fault failed
      simp only [failed] at ok
      cases ok
    · rename_i wrote
      simp only [wrote] at ok
      obtain ⟨_, _, rest⟩ := Report.result_bind_eq_ok.1 ok
      exact (ih rest).trans (decisions_writePlan wrote)

/-- Bundling succeeds if the plans can be made and written. -/
theorem bundle_ok_iff : (bundle config g into).2.result = .ok () ↔
    ∃ b, (build config g).result = .ok b ∧
      (writePlans b.index config b.plans into).2.result = .ok () := by
  unfold bundle
  simp only []
  cases built : (build config g).result with
  | error fault => simp
  | ok b =>
    simp only [Except.ok.injEq, exists_eq_left']
    cases wrote : (writePlans b.index config b.plans into).2.result with
    | error fault => simp
    | ok => simp

/-- The written graph with the decisions of the build behind those that it had. -/
theorem fst_bundle {b : Build} (built : (build config g).result = .ok b)
    (wrote : (writePlans b.index config b.plans into).2.result = .ok ()) :
    (bundle config g into).1 =
      { (writePlans b.index config b.plans into).1 with
        decisions := into.decisions.pushAll (build config g).decisions } := by
  have log := decisions_writePlans wrote
  unfold bundle
  simp only [built, wrote, log]

/-- Bundling a graph whose entries are all for one target into the graph that bundling it has given.
This succeeds, and leaves every node with its number and all edges in their order as they were. The
log of the first run has the decisions of the build, numbered from the start. The second run logs
them once more, and the numbers go on where they were. -/
theorem bundle_again (config : Config) (g : AssetGraph) (name : String)
    (one : Index.OneTarget g name) (success : (bundle config g .empty).2.result = .ok ()) :
    let first := (bundle config g .empty).1
    let again := bundle config g first
    let made := (build config g).decisions
    let log := DecisionLog.numbered 0 made
    again.2.result = .ok () ∧ again.1.nodes = first.nodes ∧ again.1.edges = first.edges ∧
      first.decisions = { nextSeq := made.length, decisions := log } ∧
      again.1.decisions = {
        nextSeq := made.length + made.length
        decisions := log ++ DecisionLog.numbered made.length made } ∧
      again.1.decisions.decisions = first.decisions.decisions ++
        first.decisions.decisions.map (fun d => { d with seq := d.seq + made.length }) ∧
      again.1.decisions.decisions.map Decision.seq = List.range (made.length + made.length) := by
  obtain ⟨b, built, wrote⟩ := bundle_ok_iff.1 success
  intro first again made log
  have isFirst : first = { (writePlans b.index config b.plans .empty).1 with
      decisions := ({} : DecisionLog).pushAll made } := fst_bundle built wrote
  obtain ⟨unchanged, wroteAgain⟩ : (writePlans b.index config b.plans first).1 = first ∧
      (writePlans b.index config b.plans first).2.result = .ok () :=
    writePlans_again one built rfl wrote (by rw [isFirst]) (by rw [isFirst])
  have isAgain : again.1 = { first with decisions := first.decisions.pushAll made } := by
    rw [show again.1 = _ from fst_bundle built wroteAgain, unchanged]
  have firstLog : first.decisions = ⟨made.length, log⟩ := by
    rw [isFirst, DecisionLog.pushAll_eq, Nat.zero_add, List.nil_append]
  have againLog : again.1.decisions =
      ⟨made.length + made.length, log ++ DecisionLog.numbered made.length made⟩ := by
    rw [isAgain, firstLog, DecisionLog.pushAll_eq]
  refine ⟨bundle_ok_iff.2 ⟨b, built, wroteAgain⟩, by rw [isAgain], by rw [isAgain], firstLog,
    againLog, ?_, ?_⟩
  · rw [againLog, firstLog, ← DecisionLog.numbered_add, Nat.zero_add]
  · rw [againLog]
    exact DecisionLog.seq_numbered_twice made

/-- Two parts that are isolated for the entry and need each other. Each of them has the code of
both, so that there is one bundle for the two. -/
def isolatedTwins : AssetGraph :=
  { nodes := [.root, .dependency { id := "entry", specifier := "index", isEntry := true },
      .asset { id := "index" },
      .dependency { id := "to left", specifier := "left", behavior := some .isolated },
      .asset { id := "left" },
      .dependency { id := "to right", specifier := "right", behavior := some .isolated },
      .asset { id := "right" },
      .dependency { id := "left to right", specifier := "right" },
      .dependency { id := "right to left", specifier := "left" }]
    edges := [(0, 1), (1, 2), (2, 3), (3, 4), (2, 5), (5, 6), (4, 7), (7, 6), (6, 8), (8, 4)] }

/-- The bundle of the twins was merged in the first run, and is as it was after the second. Eight
decisions are made in each run: both parts become roots for the entry, so that there are three
roots, and each of them gets its availability. -/
theorem isolatedTwins_again :
    let first := (bundle {} isolatedTwins .empty).1
    let again := bundle {} isolatedTwins first
    let made := (build {} isolatedTwins).decisions
    Index.OneTarget isolatedTwins "default" ∧
      (bundle {} isolatedTwins .empty).2.result = .ok () ∧
      first.bundles.map Bundle.entryAssetIds = [["index"], ["left", "right"]] ∧
      made.map Prod.fst = List.replicate 5 .roots ++ List.replicate 3 .availability ∧
      again.2.result = .ok () ∧ again.1.nodes = first.nodes ∧ again.1.edges = first.edges ∧
      first.decisions.decisions = DecisionLog.numbered 0 made ∧
      again.1.decisions.decisions =
        DecisionLog.numbered 0 made ++ DecisionLog.numbered 8 made ∧
      again.1.decisions.nextSeq = 16 ∧
      again.1.decisions.decisions.map Decision.seq = List.range 16 := by
  have success : (bundle {} isolatedTwins .empty).2.result = .ok () ∧
      (bundle {} isolatedTwins .empty).1.bundles.map Bundle.entryAssetIds =
        [["index"], ["left", "right"]] ∧
      (build {} isolatedTwins).decisions.map Prod.fst =
        List.replicate 5 .roots ++ List.replicate 3 .availability := by decide +kernel
  have one : Index.OneTarget isolatedTwins "default" := by
    unfold Index.OneTarget
    decide
  have eight : (build {} isolatedTwins).decisions.length = 8 := by
    have counted := congrArg List.length success.2.2
    simpa using counted
  obtain ⟨succeeds, nodes, edges, firstLog, againLog, _, numbers⟩ :=
    bundle_again {} isolatedTwins "default" one success.1
  rw [eight] at againLog numbers
  refine ⟨one, success.1, success.2.1, success.2.2, succeeds, nodes, edges, ?_, ?_, ?_, numbers⟩
  · rw [firstLog]
  · rw [againLog]
  · rw [againLog]

end Bundler

end CodeSplit
