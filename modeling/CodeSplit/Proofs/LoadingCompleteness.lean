import CodeSplit.Proofs.GraphIndex
import CodeSplit.Proofs.RequestLimiting
import CodeSplit.Proofs.ReuseSoundness
import CodeSplit.Proofs.RootWalks
import CodeSplit.Proofs.TargetPasses

/-!
Whatever the asset of a group needs at once has been loaded when the group has: by the group itself
or by a group on the way to it. What a root reaches is available to its group or packaged in it;
what is available was offered by the group before; and packaging, sharing and limiting lose none of
it.
-/
namespace CodeSplit

open Relation (ReflTransGen TransGen)

/-- Without parallel and inline dependencies, whatever starts a bundle starts a group. -/
theorem Triggers.createsGroup_of_not_joint {t : Triggers} (some : t.isEmpty = false)
    (notParallel : t.parallel = false) (notInline : t.inline = false) : t.createsGroup = true := by
  obtain ⟨entry, lazy, conditional, parallel, isolated, inline, environment⟩ := t
  subst notParallel notInline
  revert some
  cases entry <;> cases lazy <;> cases conditional <;> cases isolated <;> cases environment
  all_goals decide

namespace Plan

/-- Groups loaded one after the other, the last one first. The first of them relies on nothing. -/
inductive LoadPath (p : Plan) : List AssetKey → Prop
  | start {group : AssetKey} {root : Root} : group ∈ p.groupRoots → p.root? group = some root →
      root.triggers.startsEmpty = true → LoadPath p [group]
  | load {parent child : AssetKey} {before : List AssetKey} : LoadPath p (parent :: before) →
      p.LoadsGroup parent child → LoadPath p (child :: parent :: before)

theorem LoadPath.mono {p q : Plan} (sameRoots : q.roots = p.roots)
    (loads : ∀ group child, q.LoadsGroup group child → p.LoadsGroup group child)
    {path : List AssetKey} (loaded : q.LoadPath path) : p.LoadPath path := by
  induction loaded with
  | start listed found empty =>
    unfold groupRoots at listed
    unfold root? at found
    rw [sameRoots] at listed found
    exact .start listed found empty
  | load _ last ih => exact .load ih (loads _ _ last)

section Walked

variable {p : Plan} {reach : Reach} {graph : GroupGraph}
  {available packing : KeyMap AssetKey (KeySet AssetKey)} {x : AssetKey}

/-- Where no root leads back to itself through reuse, nothing is stranded. -/
theorem not_stranded (acyclic : ∀ a, ¬TransGen p.Reuses a a) {group : AssetKey} :
    ¬p.Stranded reach available group x := by
  intro stranded
  obtain ⟨a, _, b, _, ⟨other, there, back⟩, _⟩ := stranded.circular
  rcases Relation.reflTransGen_iff_eq_or_transGen.1 there with same | there
  · exact other same.symm
  · exact acyclic a (there.trans_left back)

theorem LoadPath.last_mem_groupRoots (built : p.groupGraph reach = .ok graph) {last : AssetKey}
    {before : List AssetKey} (path : p.LoadPath (last :: before)) : last ∈ p.groupRoots := by
  cases path with
  | start listed => exact listed
  | load _ loads =>
    obtain ⟨_, e, listed, rfl, passes, _⟩ := loads
    exact target_mem_groupRoots built listed passes

/-- What is available to the last group of a path is packaged in one of those before it. -/
theorem LoadPath.consumed_before (built : p.withGroups.groupGraph reach = .ok graph)
    (computed : graph.availability.result = .ok available)
    (packs : p.withGroups.IsPacking reach available packing)
    (acyclicReuse : ∀ a, ¬TransGen p.withGroups.Reuses a a)
    (acyclicGroups : ∀ n, ¬TransGen graph.CanLoad n n) {last : AssetKey} {before : List AssetKey}
    (path : p.withGroups.LoadPath (last :: before)) (relied : x ∈ available.setAt last) :
    ∃ group ∈ before, ∃ m ∈ p.withGroups.members group, m ∈ packing.setAt x := by
  have wellFormed := wellFormed_groupGraph built
  have offered {n : AssetKey} (relied : x ∈ available.setAt n) : graph.OfferedTo available n x :=
    (GroupGraph.offeredToCircle_iff acyclicGroups).1
      ((wellFormed.mem_availability computed n x).1 relied)
  induction before generalizing last with
  | nil =>
    cases path with
    | start _ found empty =>
      obtain ⟨parent, loads⟩ := (offered relied).1
      obtain ⟨⟨_, e, _, rfl, passes, _⟩, _⟩ := (canLoad_groupGraph built).1 loads
      simp [passesAvailability, found, empty] at passes
  | cons parent before ih =>
    cases path with
    | load path loads =>
      have canLoad : graph.CanLoad parent last :=
        (canLoad_groupGraph built).2 ⟨loads, path.last_mem_groupRoots built⟩
      have earlier (known : x ∈ available.setAt parent) := ih path known
      rcases (offered relied).2 parent canLoad with known | loaded
      · obtain ⟨group, listed, consumed⟩ := earlier known
        exact ⟨group, List.mem_cons_of_mem _ listed, consumed⟩
      · have listed := path.last_mem_groupRoots built
        obtain ⟨r, _, inGroup, reached⟩ := (mem_loadedBy_groupGraph built listed).1 loaded
        rcases available_or_consumed p packs reached inGroup (not_stranded acyclicReuse) with
          known | consumed
        · obtain ⟨group, listed, consumed⟩ := earlier known
          exact ⟨group, List.mem_cons_of_mem _ listed, consumed⟩
        · exact ⟨parent, List.mem_cons_self, consumed⟩

end Walked

end Plan

namespace Index

variable {i : Index}

/-- No dependency is parallel and none is inline: what starts a bundle splits it off. -/
def SplitsOnly (i : Index) : Prop :=
  ∀ k, ∀ link ∈ i.links k, ∀ target, link.target = some target →
    (i.triggersOf k link.dependency target).parallel = false ∧
      (i.triggersOf k link.dependency target).inline = false

theorem SplitsOnly.createsGroup (splits : i.SplitsOnly) {roots : KeyMap AssetKey Root}
    {e : BundleEdge} (listed : e ∈ i.bundleEdges roots) : e.triggers.createsGroup = true := by
  obtain ⟨link, member, resolved, _, same, some⟩ := link_of_mem_bundleEdges listed
  obtain ⟨notParallel, notInline⟩ := splits e.declaredBy link member e.target resolved
  rw [← same] at notParallel notInline
  exact Triggers.createsGroup_of_not_joint some notParallel notInline

/-- The theorem about graphs, for any index and any entries. -/
theorem held_of_needs (splits : i.SplitsOnly) {config : Config} {entries : List Entry}
    {target : Target} {walked : Plan} {reach : Reach}
    (first : entries.head?.map Entry.target = some target)
    (walks : (i.walkedPlan target entries).result = .ok (walked, reach))
    (acyclicReuse : ∀ a, ¬TransGen walked.Reuses a a)
    (acyclicGroups : ∀ graph, walked.groupGraph reach = .ok graph →
      ∀ n, ¬TransGen graph.CanLoad n n)
    {p : Plan} (success : (i.planTarget config entries).result = .ok p)
    {last x : AssetKey} {before : List AssetKey} {root : Root}
    (path : p.LoadPath (last :: before)) (found : p.root? last = some root)
    (needs : i.Needs last root x) : ∃ group ∈ last :: before, p.GroupHolds group x := by
  obtain ⟨entry, head, walked', reach', packing, extracted, e, placed, walks', consumed, moved,
    shared, limited⟩ := planTarget_ok success
  rw [head, Option.map_some, Option.some_inj] at first
  subst first
  cases walks.symm.trans walks'
  obtain ⟨rfl, rfl⟩ := walkedPlan_ok walks
  let unassigned : Plan :=
    { target := entry.target, roots := i.roots entries, edges := i.bundleEdges (i.roots entries)
      reused := i.reusedRoots (i.roots entries) }
  have separated : unassigned.withGroups.Separated :=
    Plan.separated_withGroups fun e listed => splits.createsGroup listed
  obtain ⟨shape, holds⟩ := Plan.holds_of_consumer moved shared
  -- limiting only takes away ways to load a group, and only adds to what a group holds
  have reduces := Plan.reduces_limitRequests (separated.of_sameShape shape) limited
  have held {group : AssetKey}
      (packed : ∃ m ∈ unassigned.withGroups.members group, m ∈ packing.setAt x) :
      p.GroupHolds group x := by
    obtain ⟨m, inside, consumer⟩ := packed
    have member : m ∈ placed.members group :=
      Plan.mem_members.2 (shape.loadsIn_iff.2 (Plan.mem_members.1 inside))
    exact reduces.holds group x ⟨m, member, holds x m consumer⟩
  have walkedPath : unassigned.withGroups.LoadPath (last :: before) :=
    (path.mono reduces.roots reduces.loads).mono shape.roots fun _ _ => shape.loadsGroup
  obtain ⟨graph, available, built, computed, packs⟩ := Plan.isPacking_of_consumers consumed
  have acyclicGroups := acyclicGroups graph built
  have isRoot : (i.roots entries).get? last = some root := by
    have sameRoots := reduces.roots.trans shape.roots
    unfold Plan.root? at found
    rw [sameRoots] at found
    exact found
  obtain ⟨s, chain, reached⟩ := reached_of_needs (p := unassigned.withGroups) rfl isRoot needs
  have inGroup : unassigned.withGroups.LoadsIn last s :=
    ⟨last, (separated.groups last last).2 ⟨rfl, walkedPath.last_mem_groupRoots built⟩, chain⟩
  rcases Plan.available_or_consumed unassigned packs reached inGroup
    (Plan.not_stranded acyclicReuse) with known | consumed
  · obtain ⟨group, listed, packed⟩ :=
      walkedPath.consumed_before built computed packs acyclicReuse acyclicGroups known
    exact ⟨group, List.mem_cons_of_mem _ listed, held packed⟩
  · exact ⟨last, List.mem_cons_self, held consumed⟩

/-- A graph without parallel and inline dependencies has an index without them. -/
theorem splitsOnly_ofGraph {g : AssetGraph}
    (noParallel : ∀ d, .dependency d ∈ g.nodes → d.priority ≠ .parallel)
    (noInline : ∀ d, .dependency d ∈ g.nodes → d.isInline = false)
    (noInlineAsset : ∀ a, .asset a ∈ g.nodes → a.behavior.any Behavior.isInline = false) :
    (ofGraph g).SplitsOnly := by
  intro k link member target _
  have listed := dependency_mem_nodes member
  unfold triggersOf
  split
  · rename_i source resolved _ found
    split
    · exact ⟨rfl, rfl⟩
    · simp [noParallel _ listed, noInline _ listed, noInlineAsset _ (asset_mem_nodes found)]
  · exact ⟨rfl, rfl⟩

end Index

/-- Take a graph without parallel dependencies and without inline dependencies or assets, and a
target whose roots do not reuse each other in a circle and whose groups do not load each other in a
circle. Load any number of groups of the resulting plan, the first of which relies on nothing, each
of the others being loaded from the one before. Then whatever the asset of the last group needs at
once is held by one of them. -/
theorem loaded_group_is_complete (g : AssetGraph) (config : Config) (entries : List Entry)
    (target : Target) (walked p : Plan) (reach : Reach)
    (noParallel : ∀ d, .dependency d ∈ g.nodes → d.priority ≠ .parallel)
    (noInline : ∀ d, .dependency d ∈ g.nodes → d.isInline = false)
    (noInlineAsset : ∀ a, .asset a ∈ g.nodes → a.behavior.any Behavior.isInline = false)
    (first : entries.head?.map Entry.target = some target)
    (walks : ((Index.ofGraph g).walkedPlan target entries).result = .ok (walked, reach))
    (acyclicReuse : ∀ a, ¬TransGen walked.Reuses a a)
    (acyclicGroups : ∀ graph, walked.groupGraph reach = .ok graph →
      ∀ n, ¬TransGen graph.CanLoad n n)
    (success : ((Index.ofGraph g).planTarget config entries).result = .ok p)
    (last : AssetKey) (before : List AssetKey) (root : Root) (path : p.LoadPath (last :: before))
    (found : p.root? last = some root) (x : AssetKey)
    (needs : (Index.ofGraph g).Needs last root x) :
    ∃ group ∈ last :: before, ∃ m ∈ p.members group,
      (∃ fileType, x ∈ p.bucket m fileType) ∨
      (∃ b ∈ p.liveSharedBundles, x ∈ b.assets ∧ m ∈ b.consumers) ∨
      ∃ key b, p.manualBundles.get? key = some b ∧ x ∈ b.assets ∧ m ∈ b.consumers := by
  have splits := Index.splitsOnly_ofGraph noParallel noInline noInlineAsset
  obtain ⟨group, listed, m, member, held⟩ :=
    Index.held_of_needs splits first walks acyclicReuse acyclicGroups success path found needs
  exact ⟨group, listed, m, member, held⟩

/-- An entry that imports a library and loads a part which imports it too. -/
def sharedLibrary : AssetGraph :=
  let dependency (id : String) (priority : Priority) : AssetGraph.Node :=
    .dependency { id, specifier := id, priority }
  { nodes := [.root, .dependency { id := "entry", specifier := "index", isEntry := true },
      .asset { id := "index" }, dependency "load" .lazy, .asset { id := "a" },
      dependency "import" .sync, .asset { id := "lib" }, dependency "import too" .sync]
    edges := [(0, 1), (1, 2), (2, 3), (3, 4), (2, 5), (5, 6), (4, 7), (7, 6)] }

def sharedLibraryEntries : List Entry :=
  [⟨{ id := "entry", specifier := "index", isEntry := true }, 1, {}⟩]

/-- The entry packages the library, and the part relies on it. -/
def sharedLibraryPlan : Plan where
  roots := .ofList [(0, { assetId := "a", triggers := { lazy := true } }),
    (1, { assetId := "index", triggers := { entry := true } })]
  edges := [⟨1, 0, 1, "load", { lazy := true }⟩]
  ownGroups := .ofList [(0, .ofList [0]), (1, .ofList [1])]
  placements := .ofList [(0, .ofList [(.js, .ofList [0])]), (1, .ofList [(.js, .ofList [1, 2])])]

theorem sharedLibrary_complete :
    ((Index.ofGraph sharedLibrary).planTarget {} sharedLibraryEntries).result =
      .ok sharedLibraryPlan ∧
    ∃ group ∈ [0, 1], ∃ m ∈ sharedLibraryPlan.members group,
      (∃ fileType, 2 ∈ sharedLibraryPlan.bucket m fileType) ∨
      (∃ b ∈ sharedLibraryPlan.liveSharedBundles, 2 ∈ b.assets ∧ m ∈ b.consumers) ∨
      ∃ key b, sharedLibraryPlan.manualBundles.get? key = some b ∧ 2 ∈ b.assets ∧
        m ∈ b.consumers := by
  have success : ((Index.ofGraph sharedLibrary).planTarget {} sharedLibraryEntries).result =
      .ok sharedLibraryPlan := by decide +kernel
  have walks : ((Index.ofGraph sharedLibrary).walkedPlan {} sharedLibraryEntries).result =
      .ok ({ sharedLibraryPlan with placements := ∅ },
        .ofList [(0, 0), (0, 2), (1, 1), (1, 2)]) := by decide +kernel
  have dependencies : ∀ d, .dependency d ∈ sharedLibrary.nodes →
      d.priority ≠ .parallel ∧ d.isInline = false := by
    intro d listed
    simp only [sharedLibrary, List.mem_cons, AssetGraph.Node.dependency.injEq, reduceCtorEq,
      List.not_mem_nil, false_or, or_false] at listed
    rcases listed with rfl | rfl | rfl | rfl
    all_goals exact ⟨by decide, rfl⟩
  have assets : ∀ a, .asset a ∈ sharedLibrary.nodes →
      a.behavior.any Behavior.isInline = false := by
    intro a listed
    simp only [sharedLibrary, List.mem_cons, AssetGraph.Node.asset.injEq, reduceCtorEq,
      List.not_mem_nil, false_or, or_false] at listed
    rcases listed with rfl | rfl | rfl
    all_goals rfl
  have noReuse : ∀ a, ¬TransGen ({ sharedLibraryPlan with placements := ∅ } : Plan).Reuses a a := by
    intro a around
    obtain ⟨b, pair, _⟩ := TransGen.head'_iff.1 around
    exact KeySet.not_mem_empty (a, b) pair
  have oneWay : ∀ graph, ({ sharedLibraryPlan with placements := ∅ } : Plan).groupGraph
      (.ofList [(0, 0), (0, 2), (1, 1), (1, 2)]) = .ok graph →
      ∀ n, ¬TransGen graph.CanLoad n n := by
    intro graph built n around
    have leads {a b : AssetKey} (loads : graph.CanLoad a b) : a ≠ 0 ∧ b = 0 := by
      obtain ⟨⟨other, e, listed, rfl, _⟩, _⟩ := (Plan.canLoad_groupGraph built).1 loads
      cases List.mem_singleton.1 listed
      exact ⟨other, rfl⟩
    obtain ⟨_, first, _⟩ := TransGen.head'_iff.1 around
    obtain ⟨_, _, last⟩ := TransGen.tail'_iff.1 around
    exact (leads first).1 (leads last).2
  have path : sharedLibraryPlan.LoadPath [0, 1] := by
    have entry : sharedLibraryPlan.root? 1 =
        some { assetId := "index", triggers := { entry := true } } := by decide
    refine .load (.start (by decide) entry rfl) ?_
    refine ⟨by decide, ⟨1, 0, 1, "load", { lazy := true }⟩, by decide, rfl, by decide, ?_⟩
    exact ⟨1, by decide, .refl⟩
  have needs : (Index.ofGraph sharedLibrary).Needs 0
      { assetId := "a", triggers := { lazy := true } } 2 := by
    have resolves : (Index.ofGraph sharedLibrary).ResolvesSynchronously 0 2 := by
      unfold Index.ResolvesSynchronously
      decide +kernel
    exact .single resolves
  exact ⟨success, loaded_group_is_complete sharedLibrary {} sharedLibraryEntries {} _
    sharedLibraryPlan _ (fun d listed => (dependencies d listed).1)
    (fun d listed => (dependencies d listed).2) assets rfl walks noReuse oneWay success 0 [1] _ path
    rfl 2 needs⟩

end CodeSplit
