import CodeSplit.Proofs.Consumers

/-!
Relying on reuse. A root may leave out what a root that it reuses reaches, and that root may in turn
leave it out. Within a group this ends at a root that packages the asset, unless two roots of the
group that reach the asset reuse each other.
-/
namespace CodeSplit.Plan

open Relation (ReflTransGen TransGen)

variable {p : Plan} {reach : Reach} {available : KeyMap AssetKey (KeySet AssetKey)}
  {group x : AssetKey}

/-- Two different roots that each lead to the other through reuse. -/
def ReuseEachOther (p : Plan) (a b : AssetKey) : Prop :=
  a ≠ b ∧ ReflTransGen p.Reuses a b ∧ ReflTransGen p.Reuses b a

/-- No root of a group packages an asset that roots of the group reach: the asset was not loaded
before, all of these roots rely on others for it, which some root elsewhere does not, and two of
them reuse each other. -/
structure Stranded (p : Plan) (reach : Reach) (available : KeyMap AssetKey (KeySet AssetKey))
    (group x : AssetKey) : Prop where
  unavailable : x ∉ available.setAt group
  relied : ∀ m ∈ p.members group, x ∈ reach.reachedBy m → p.ReliesOn reach available m x
  kept : ∃ m, x ∈ reach.reachedBy m ∧ ¬p.ReliesOn reach available m x
  circular : ∃ a ∈ p.members group, ∃ b ∈ p.members group,
    p.ReuseEachOther a b ∧ x ∈ reach.reachedBy a ∧ x ∈ reach.reachedBy b

/-- A reused root relies only on reuse for what its group does not have. -/
theorem ReliesOn.through_reuse {root member : AssetKey} (relies : p.ReliesOn reach available root x)
    (own : group ∈ p.groupsOf member) (chain : ReflTransGen p.Reuses member root)
    (other : member ≠ root) (unavailable : x ∉ available.setAt group) :
    ∃ reused ∈ p.reusedClosure root, x ∈ reach.reachedBy reused := by
  obtain ⟨_, found, _, relied⟩ := relies
  obtain ⟨_, _, common | reused⟩ := mem_rootAvailability.1 relied
  · have inGroups := common.2 member (mem_reusersClosure.2 ⟨other, chain⟩)
    exact absurd ((mem_availableInGroups.1 inGroups).2 group own) unavailable
  · exact reused

/-- A member of a group relies on reuse for what its group does not have, or it has no group itself
and is loaded along with roots that reach the asset. -/
theorem ReliesOn.of_own {root : AssetKey} (relies : p.ReliesOn reach available root x)
    (own : group ∈ p.groupsOf root) (unavailable : x ∉ available.setAt group) :
    (∃ reused ∈ p.reusedClosure root, x ∈ reach.reachedBy reused) ∨
      ∃ r, p.root? root = some r ∧ r.triggers.createsGroup = false ∧
        ∀ e ∈ p.edges, e.target = root → e.triggers.createsGroup = false →
          group ∈ p.groupsOf e.source → x ∈ reach.reachedBy e.source := by
  obtain ⟨_, r, found, relied⟩ := relies
  obtain ⟨_, _, common | reused⟩ := mem_rootAvailability.1 relied
  · right
    cases creates : r.triggers.createsGroup with
    | true =>
      have inGroups := (mem_baseAvailability_of_createsGroup creates).1 common.1
      exact absurd ((mem_availableInGroups.1 inGroups).2 group own) unavailable
    | false =>
      refine ⟨r, found, creates, ?_⟩
      intro e listed target joint passed
      have offers := ((mem_baseAvailability_of_not_createsGroup creates).1 common.1).2
      rcases offers e listed target joint with inGroups | reached
      · exact absurd ((mem_availableInGroups.1 inGroups).2 group passed) unavailable
      · exact reached
  · exact .inl reused

/-- Following the edges along which a root joined a group leads to a member that relies on reuse. -/
theorem exists_relies_on_reuse (p : Plan) {member : AssetKey}
    (joins : Joins p p.withGroups.ownGroups group member) (reached : x ∈ reach.reachedBy member)
    (unavailable : x ∉ available.setAt group)
    (relied : ∀ m ∈ p.withGroups.members group, x ∈ reach.reachedBy m →
      p.withGroups.ReliesOn reach available m x) :
    ∃ m, p.withGroups.LoadsIn group m ∧ x ∈ reach.reachedBy m ∧
      ∃ reused ∈ p.withGroups.reusedClosure m, x ∈ reach.reachedBy reused := by
  have inGroup {m : AssetKey} (joins : Joins p p.withGroups.ownGroups group m) :
      p.withGroups.LoadsIn group m := ⟨m, joins.mem, .refl⟩
  have relies {m : AssetKey} (joins : Joins p p.withGroups.ownGroups group m)
      (reached : x ∈ reach.reachedBy m) := relied m (mem_members.2 (inGroup joins)) reached
  induction joins with
  | own found creates mem =>
    have joined : Joins p p.withGroups.ownGroups group group := .own found creates mem
    rcases (relies joined reached).of_own mem unavailable with reused | ⟨r, known, joint, _⟩
    · exact ⟨group, inGroup joined, reached, reused⟩
    · cases found.symm.trans known
      rw [creates] at joint
      cases joint
  | along listed joint joins mem ih =>
    have joined : Joins p p.withGroups.ownGroups group _ := .along listed joint joins mem
    rcases (relies joined reached).of_own mem unavailable with reused | ⟨_, _, _, passed⟩
    · exact ⟨_, inGroup joined, reached, reused⟩
    · exact ih (passed _ listed rfl joint joins.mem)

/-- Following reuse among roots that all rely on others leads around a circle. -/
theorem exists_reuseEachOther {m : AssetKey} (loads : p.LoadsIn group m)
    (reached : x ∈ reach.reachedBy m)
    (reuse : ∃ reused ∈ p.reusedClosure m, x ∈ reach.reachedBy reused)
    (unavailable : x ∉ available.setAt group)
    (relied : ∀ m ∈ p.members group, x ∈ reach.reachedBy m → p.ReliesOn reach available m x) :
    ∃ a ∈ p.members group, ∃ b ∈ p.members group,
      p.ReuseEachOther a b ∧ x ∈ reach.reachedBy a ∧ x ∈ reach.reachedBy b := by
  obtain ⟨own, member, toRoot⟩ := loads
  have inGroup {r : AssetKey} (chain : ReflTransGen p.Reuses m r) : r ∈ p.members group :=
    mem_members.2 ⟨own, member, toRoot.trans chain⟩
  by_contra apart
  have oneWay {a b : AssetKey} (toA : ReflTransGen p.Reuses m a) (toB : ReflTransGen p.Reuses m b)
      (reachedA : x ∈ reach.reachedBy a) (reachedB : x ∈ reach.reachedBy b) :
      ¬p.ReuseEachOther a b := fun pair =>
    apart ⟨a, inGroup toA, b, inGroup toB, pair, reachedA, reachedB⟩
  let below := (p.reusedClosure m).toList.filter fun r => decide (x ∈ reach.reachedBy r)
  have mem_below {r : AssetKey} : r ∈ below ↔
      (r ≠ m ∧ ReflTransGen p.Reuses m r) ∧ x ∈ reach.reachedBy r := by
    simp only [below, List.mem_filter, decide_eq_true_eq, ← KeySet.mem_def, mem_reusedClosure]
  let step (y z : AssetKey) : Prop := y ∈ below ∧ z ∈ below ∧ y ∈ p.reusedClosure z
  have chain_of_steps {y z : AssetKey} (steps : ReflTransGen step y z) :
      ReflTransGen p.Reuses z y := by
    induction steps with
    | refl => exact .refl
    | tail _ last ih => exact (mem_reusedClosure.1 last.2.2).2.trans ih
  have acyclic (a : AssetKey) : ¬TransGen step a a := by
    intro around
    obtain ⟨b, first, rest⟩ := TransGen.head'_iff.1 around
    obtain ⟨belowA, belowB, reuses⟩ := first
    obtain ⟨other, toA⟩ := mem_reusedClosure.1 reuses
    exact oneWay (mem_below.1 belowA).1.2 (mem_below.1 belowB).1.2 (mem_below.1 belowA).2
      (mem_below.1 belowB).2 ⟨other, chain_of_steps rest, toA⟩
  have some : below ≠ [] := by
    obtain ⟨r, closure, reachedR⟩ := reuse
    exact List.ne_nil_of_mem (mem_below.2 ⟨mem_reusedClosure.1 closure, reachedR⟩)
  obtain ⟨last, lastBelow, stuck⟩ := Walk.exists_first acyclic below some
  obtain ⟨⟨differs, toLast⟩, reachedLast⟩ := mem_below.1 lastBelow
  -- nothing else below `last` reaches the asset, so that it cannot rely on reuse
  have notFirst : own ≠ last := by
    rintro rfl
    exact oneWay .refl toLast reached reachedLast ⟨Ne.symm differs, toLast, toRoot⟩
  have relies := relied last (inGroup toLast) reachedLast
  obtain ⟨next, closure, reachedNext⟩ :=
    relies.through_reuse member (toRoot.trans toLast) notFirst unavailable
  obtain ⟨other, toNext⟩ := mem_reusedClosure.1 closure
  by_cases back : next = m
  · subst back
    exact oneWay toLast .refl reachedLast reached ⟨differs, toNext, toLast⟩
  · have nextBelow : next ∈ below := mem_below.2 ⟨⟨back, toLast.trans toNext⟩, reachedNext⟩
    exact stuck next nextBelow ⟨nextBelow, lastBelow, closure⟩

/-- What is not stranded in a group is loaded before the group or packaged by a root of it. -/
theorem available_or_consumed (p : Plan) {packing : KeyMap AssetKey (KeySet AssetKey)}
    (packs : p.withGroups.IsPacking reach available packing) {r : AssetKey}
    (reached : x ∈ reach.reachedBy r) (loads : p.withGroups.LoadsIn group r)
    (notStranded : ¬p.withGroups.Stranded reach available group x) :
    x ∈ available.setAt group ∨ ∃ m ∈ p.withGroups.members group, m ∈ packing.setAt x := by
  by_contra missing
  obtain ⟨unavailable, unpacked⟩ := not_or.1 missing
  have leftOut {m : AssetKey} (inside : m ∈ p.withGroups.members group)
      (reachedM : x ∈ reach.reachedBy m) : p.withGroups.ReliesOn reach available m x ∧
        ∃ k, x ∈ reach.reachedBy k ∧ ¬p.withGroups.ReliesOn reach available k x := by
    have absent : m ∉ packing.setAt x := fun packed => unpacked ⟨m, inside, packed⟩
    rw [packs] at absent
    push Not at absent
    exact absent reachedM
  have relied : ∀ m ∈ p.withGroups.members group, x ∈ reach.reachedBy m →
      p.withGroups.ReliesOn reach available m x :=
    fun m inside reachedM => (leftOut inside reachedM).1
  apply notStranded
  refine ⟨unavailable, relied, (leftOut (mem_members.2 loads) reached).2, ?_⟩
  obtain ⟨own, member, chain⟩ := loads
  by_cases direct : own = r
  · subst direct
    obtain ⟨m, loadsM, reachedM, reuse⟩ := exists_relies_on_reuse p
      (joins_of_mem_groupsOf member) reached unavailable relied
    exact exists_reuseEachOther loadsM reachedM reuse unavailable relied
  · have loads : p.withGroups.LoadsIn group r := ⟨own, member, chain⟩
    have relies := relied r (mem_members.2 loads) reached
    have reuse := relies.through_reuse member chain direct unavailable
    exact exists_reuseEachOther loads reached reuse unavailable relied

/-- Once the groups are assigned, an asset that a root of a group reaches was loaded before the
group or is packaged by a root of the group, exactly unless it is stranded there. -/
theorem available_or_consumed_iff (p : Plan) (i : Index) (reach : Reach)
    (packing : KeyMap AssetKey (KeySet AssetKey))
    (success : (p.withGroups.consumers i reach).result = .ok packing) :
    ∃ graph available, p.withGroups.groupGraph reach = .ok graph ∧
      graph.availability.result = .ok available ∧
      ∀ r x group, x ∈ reach.reachedBy r → group ∈ p.withGroups.allGroups r →
        ((x ∈ available.setAt group ∨ ∃ m ∈ p.withGroups.members group, m ∈ packing.setAt x) ↔
          ¬p.withGroups.Stranded reach available group x) := by
  obtain ⟨graph, available, built, computed, packs⟩ := isPacking_of_consumers success
  refine ⟨graph, available, built, computed, ?_⟩
  intro r x group reached belongs
  constructor
  · intro loaded stranded
    rcases loaded with known | ⟨m, inside, packed⟩
    · exact stranded.unavailable known
    · obtain ⟨reachedM, reason⟩ := (packs x m).1 packed
      obtain ⟨k, reachedK, keeps⟩ := stranded.kept
      rcases reason with keepsM | all
      · exact keepsM (stranded.relied m inside reachedM)
      · exact keeps (all k reachedK)
  · intro notStranded
    exact available_or_consumed p packs reached (mem_allGroups.1 belongs) notStranded

/-- Two lazy roots `1` and `2` that reuse each other and a third one, `0`, all of which need the
asset `4`. -/
def mutualReuse : Plan :=
  let lazyRoot (id : String) : Root := { assetId := id, triggers := { lazy := true } }
  let lazyEdge (target : AssetKey) : BundleEdge := ⟨3, target, 3, "", { lazy := true }⟩
  { roots := .ofList [(0, lazyRoot "c"), (1, lazyRoot "b"), (2, lazyRoot "a"),
      (3, { assetId := "index", triggers := { entry := true } })]
    edges := [lazyEdge 0, lazyEdge 1, lazyEdge 2]
    reused := .ofList [(1, 2), (2, 1)] }

def mutualReuseReach : Reach := .ofList [(0, 0), (0, 4), (1, 1), (1, 4), (2, 2), (2, 4), (3, 3)]

def mutualReuseIndex : Index :=
  ⟨["c", "b", "a", "index", "lib"].map fun id => ⟨{ id := id }, "", []⟩⟩

def mutualReuseGraph : GroupGraph where
  groups := [0, 1, 2, 3]
  parents := .ofList [(0, .ofList [3]), (1, .ofList [3]), (2, .ofList [3]), (3, ∅)]
  loaded := .ofList
    [(0, .ofList [0, 4]), (1, .ofList [1, 2, 4]), (2, .ofList [1, 2, 4]), (3, .ofList [3])]

def mutualReuseAvailable : KeyMap AssetKey (KeySet AssetKey) :=
  .ofList [(0, .ofList [3]), (1, .ofList [3]), (2, .ofList [3]), (3, ∅)]

def mutualReusePacking : KeyMap AssetKey (KeySet AssetKey) :=
  .ofList [(0, .ofList [0]), (1, .ofList [1]), (2, .ofList [2]), (3, .ofList [3]), (4, .ofList [0])]

theorem mutualReuse_stranded :
    (mutualReuse.withGroups.consumers mutualReuseIndex mutualReuseReach).result =
      .ok mutualReusePacking ∧
    mutualReuse.withGroups.Stranded mutualReuseReach mutualReuseAvailable 1 4 := by
  have success : (mutualReuse.withGroups.consumers mutualReuseIndex mutualReuseReach).result =
      .ok mutualReusePacking := rfl
  obtain ⟨graph, available, built, computed, loadedIff⟩ := available_or_consumed_iff mutualReuse
    mutualReuseIndex mutualReuseReach mutualReusePacking success
  have sameGraph : mutualReuseGraph = graph := Except.ok.inj built
  subst sameGraph
  have sameAvailable : mutualReuseAvailable = available := Except.ok.inj computed
  subst sameAvailable
  refine ⟨success, ?_⟩
  by_contra notStranded
  have loaded := (loadedIff 1 4 1 (by decide) (by decide)).2 notStranded
  revert loaded
  decide

/-- Neither of the roots `1` and `2` packages the asset `4`, since each relies on the other, and the
root `0` that does package it is not in their groups. -/
theorem mutualReuse_leaves_asset_out :
    ¬∀ (p : Plan) (i : Index) (reach : Reach) (packing : KeyMap AssetKey (KeySet AssetKey))
        (graph : GroupGraph) (available : KeyMap AssetKey (KeySet AssetKey)),
      (p.withGroups.consumers i reach).result = .ok packing →
      p.withGroups.groupGraph reach = .ok graph → graph.availability.result = .ok available →
      ∀ r ∈ p.roots.keys, ∀ x ∈ reach.reachedBy r, r ∉ packing.setAt x →
        ∀ group ∈ p.withGroups.allGroups r,
          x ∈ available.setAt group ∨
            ∃ m ∈ p.withGroups.members group, m ∈ packing.setAt x := by
  intro sound
  have loaded := sound mutualReuse mutualReuseIndex mutualReuseReach mutualReusePacking
    mutualReuseGraph mutualReuseAvailable rfl rfl rfl 1 (by decide) 4 (by decide) (by decide) 1
    (by decide)
  revert loaded
  decide

end CodeSplit.Plan
