import CodeSplit.Plan.Groups
import CodeSplit.Proofs.CircleAvailability
import CodeSplit.Proofs.Membership

/-!
The group graph of a plan, and how much a group relies on a group that can load it. A group never
relies on more than the circle of that parent offers. Where the parent can load other groups that
lead back to it, what these load counts as well, whether or not the parent has loaded it.
-/
namespace CodeSplit

namespace Plan

variable {p : Plan} {reach : Reach} {graph : GroupGraph}

/-- An edge from a bundle of the first group loads the second group, which relies on it. -/
def LoadsGroup (p : Plan) (parent child : AssetKey) : Prop :=
  parent ≠ child ∧ ∃ e ∈ p.edges, e.target = child ∧ p.passesAvailability e = true ∧
    p.LoadsIn parent e.source

theorem groupGraph_eq (built : p.groupGraph reach = .ok graph) :
    graph = { groups := p.groupRoots
              parents := KeyMap.ofList
                (p.groupRoots.map fun n => (n, p.parentGroups p.groupRoots n))
              loaded := KeyMap.ofList (p.groupRoots.map fun n => (n, p.groupLoads reach n)) } := by
  unfold groupGraph at built
  simp only [] at built
  split at built
  · cases built
  · exact (Except.ok.inj built).symm

theorem groups_groupGraph (built : p.groupGraph reach = .ok graph) :
    graph.groups = p.groupRoots := by
  rw [groupGraph_eq built]

/-- An edge that passes availability on leads to a group. -/
theorem target_mem_groupRoots (built : p.groupGraph reach = .ok graph) {e : BundleEdge}
    (member : e ∈ p.edges) (passes : p.passesAvailability e = true) : e.target ∈ p.groupRoots := by
  unfold groupGraph at built
  simp only [] at built
  split at built
  · cases built
  · rename_i none
    by_contra outside
    exact none (List.any_eq_true.2 ⟨e, member, by simp [passes, outside]⟩)

theorem mem_parentGroups {groups : List AssetKey} {parent child : AssetKey} :
    parent ∈ p.parentGroups groups child ↔ p.LoadsGroup parent child ∧ parent ∈ groups := by
  simp only [parentGroups, KeySet.mem_unions_map, List.mem_filter, Bool.and_eq_true,
    decide_eq_true_eq, KeySet.mem_filter, KeySet.mem_erase, mem_allGroups, LoadsGroup]
  constructor
  · intro found
    obtain ⟨e, ⟨member, target, passes⟩, ⟨loads, other⟩, listed⟩ := found
    exact ⟨⟨other, e, member, target, passes, loads⟩, listed⟩
  · intro found
    obtain ⟨⟨other, e, member, target, passes, loads⟩, listed⟩ := found
    exact ⟨e, ⟨member, target, passes⟩, ⟨loads, other⟩, listed⟩

theorem canLoad_groupGraph (built : p.groupGraph reach = .ok graph) {parent child : AssetKey} :
    graph.CanLoad parent child ↔ p.LoadsGroup parent child ∧ parent ∈ p.groupRoots := by
  have parents : graph.parentsOf child =
      if child ∈ p.groupRoots then p.parentGroups p.groupRoots child else ∅ := by
    rw [groupGraph_eq built, GroupGraph.parentsOf,
      KeyMap.get?_ofList_map (p.parentGroups p.groupRoots) p.groupRoots child]
    split <;> rfl
  unfold GroupGraph.CanLoad
  rw [parents, ← mem_parentGroups]
  split
  · exact Iff.rfl
  · rename_i outside
    refine iff_of_false (KeySet.not_mem_empty parent) ?_
    intro member
    obtain ⟨⟨_, e, listed, rfl, passes, _⟩, _⟩ := mem_parentGroups.1 member
    exact outside (target_mem_groupRoots built listed passes)

theorem wellFormed_groupGraph (built : p.groupGraph reach = .ok graph) : graph.WellFormed := by
  constructor
  · rw [groups_groupGraph built]
    exact nodup_groupRoots
  · intro parent child loads
    obtain ⟨⟨_, e, listed, rfl, passes, _⟩, inside⟩ := (canLoad_groupGraph built).1 loads
    rw [groups_groupGraph built]
    exact ⟨inside, target_mem_groupRoots built listed passes⟩

/-- What a group loads is what the roots reach that load in it. -/
theorem mem_loadedBy_groupGraph (built : p.groupGraph reach = .ok graph) {group x : AssetKey}
    (listed : group ∈ p.groupRoots) :
    x ∈ graph.loadedBy group ↔
      ∃ r ∈ p.roots.keys, p.LoadsIn group r ∧ x ∈ reach.reachedBy r := by
  have loaded : graph.loadedBy group = p.groupLoads reach group := by
    rw [groupGraph_eq built, GroupGraph.loadedBy,
      KeyMap.get?_ofList_map (p.groupLoads reach) p.groupRoots group, if_pos listed]
    rfl
  rw [loaded, groupLoads, KeySet.mem_unions_map]
  simp only [List.mem_filter, decide_eq_true_eq, mem_allGroups, and_assoc]

end Plan

namespace GroupGraph

variable {g : GroupGraph}

theorem WellFormed.setAt_eq_of_sameCircle (wellFormed : g.WellFormed)
    {available : KeyMap AssetKey (KeySet AssetKey)}
    (success : g.availability.result = .ok available) {a b : AssetKey} (circle : g.SameCircle a b) :
    available.setAt a = available.setAt b := by
  have inside {n : AssetKey} : g.SameCircle n a ↔ g.SameCircle n b := by
    constructor
    · intro related
      exact related.trans circle
    · intro related
      exact related.trans circle.symm
  apply KeySet.ext
  intro x
  rw [wellFormed.mem_availability success, wellFormed.mem_availability success]
  simp only [OfferedToCircle, LeadsInto, inside]

/-- A group relies on no more than the circle of any group that can load it offers. -/
theorem WellFormed.offered_of_canLoad (wellFormed : g.WellFormed)
    {available : KeyMap AssetKey (KeySet AssetKey)}
    (success : g.availability.result = .ok available) {parent child x : AssetKey}
    (loads : g.CanLoad parent child) (relied : x ∈ available.setAt child) :
    x ∈ available.setAt parent ∨ (¬g.SameCircle parent child ∧ g.CircleLoads parent x) := by
  by_cases circle : g.SameCircle parent child
  · rw [wellFormed.setAt_eq_of_sameCircle success circle]
    exact .inl relied
  · have leads : g.LeadsInto parent child := ⟨circle, child, .refl child, loads⟩
    have offered := ((wellFormed.mem_availability success child x).1 relied).2 parent leads
    rcases offered with known | loaded
    · exact .inl known
    · exact .inr ⟨circle, loaded⟩

end GroupGraph

namespace Plan

/-- Availability is computed for every group graph of a plan, and what a group relies on is bounded
by each group that can load it: by what was available to that parent and what its circle loads. That
the parent alone offers all of it holds exactly if the child is in the circle of the parent, or
every asset that only others of the circle load is missing from some other way into the child's
circle. -/
theorem availability_bounded_by_parent (p : Plan) (reach : Reach) (graph : GroupGraph)
    (built : p.groupGraph reach = .ok graph) :
    ∃ available, graph.availability.result = .ok available ∧
      ∀ parent child, graph.CanLoad parent child →
        (∀ x ∈ available.setAt child, x ∈ available.setAt parent ∨ graph.CircleLoads parent x) ∧
        ((∀ x ∈ available.setAt child, x ∈ available.setAt parent ∨ x ∈ graph.loadedBy parent) ↔
          graph.SameCircle parent child ∨
            ∀ x, graph.CircleLoads parent x → x ∉ available.setAt parent →
              x ∉ graph.loadedBy parent →
              ∃ outside, graph.LeadsInto outside child ∧ x ∉ available.setAt outside ∧
                ¬graph.CircleLoads outside x) := by
  have wellFormed := wellFormed_groupGraph built
  obtain ⟨available, success⟩ := wellFormed.exists_availability
  refine ⟨available, success, ?_⟩
  intro parent child loads
  refine ⟨?_, ?_, ?_⟩
  · intro x relied
    exact (wellFormed.offered_of_canLoad success loads relied).imp id And.right
  · intro bounded
    by_cases circle : graph.SameCircle parent child
    · exact .inl circle
    · refine .inr ?_
      intro x others unavailable unloaded
      by_contra everywhere
      have leads : graph.LeadsInto parent child := ⟨circle, child, .refl child, loads⟩
      have relied : x ∈ available.setAt child := by
        rw [wellFormed.mem_availability success]
        refine ⟨⟨parent, leads⟩, ?_⟩
        intro outside into
        by_contra missing
        rw [not_or] at missing
        exact everywhere ⟨outside, into, missing.1, missing.2⟩
      rcases bounded x relied with known | loaded
      · exact unavailable known
      · exact unloaded loaded
  · intro condition x relied
    rcases wellFormed.offered_of_canLoad success loads relied with known | ⟨apart, others⟩
    · exact .inl known
    · by_contra missing
      rw [not_or] at missing
      obtain ⟨outside, into, unavailable, unloaded⟩ :=
        condition.resolve_left apart x others missing.1 missing.2
      rcases ((wellFormed.mem_availability success child x).1 relied).2 outside into with h | h
      · exact unavailable h
      · exact unloaded h

/-- An entry that can load a group `2`, which can load and be loaded by `1`; only `1` has the asset
`4`, and `2` can load `0`, which needs it too. -/
def circleAboveGroup : Plan :=
  let lazyRoot (id : String) : Root := { assetId := id, triggers := { lazy := true } }
  let lazyEdge (source target : AssetKey) : BundleEdge :=
    ⟨source, target, source, "", { lazy := true }⟩
  Plan.withGroups
    { roots := .ofList [(0, lazyRoot "c"), (1, lazyRoot "b"), (2, lazyRoot "a"),
        (3, { assetId := "index", triggers := { entry := true } })]
      edges := [lazyEdge 1 2, lazyEdge 2 0, lazyEdge 2 1, lazyEdge 3 2] }

def circleAboveGroupReach : Reach := .ofList [(0, 0), (0, 4), (1, 1), (1, 4), (2, 2), (3, 3)]

def circleAboveGroupGraph : GroupGraph where
  groups := [0, 1, 2, 3]
  parents := .ofList [(0, .ofList [2]), (1, .ofList [2]), (2, .ofList [1, 3]), (3, ∅)]
  loaded := circleAboveGroupReach.byRoot

theorem circleAboveGroup_bounded :
    circleAboveGroup.groupGraph circleAboveGroupReach = .ok circleAboveGroupGraph ∧
    circleAboveGroupGraph.CanLoad 2 0 ∧
    ∃ available, circleAboveGroupGraph.availability.result = .ok available ∧
      ∀ x ∈ available.setAt 0, x ∈ available.setAt 2 ∨ circleAboveGroupGraph.CircleLoads 2 x := by
  have built : circleAboveGroup.groupGraph circleAboveGroupReach = .ok circleAboveGroupGraph := rfl
  have loads : circleAboveGroupGraph.CanLoad 2 0 := by
    unfold GroupGraph.CanLoad
    decide
  obtain ⟨available, success, bounded⟩ := availability_bounded_by_parent circleAboveGroup
    circleAboveGroupReach circleAboveGroupGraph built
  exact ⟨built, loads, available, success, (bounded 2 0 loads).1⟩

/-- The group `0` relies on the asset `4` although its parent `2` has never loaded it. -/
theorem circleAboveGroup_relies_on_unloaded :
    ¬∀ (p : Plan) (reach : Reach) (graph : GroupGraph)
        (available : KeyMap AssetKey (KeySet AssetKey)),
      p.groupGraph reach = .ok graph → graph.availability.result = .ok available →
        ∀ parent child, graph.CanLoad parent child → ∀ x ∈ available.setAt child,
          x ∈ available.setAt parent ∨ x ∈ graph.loadedBy parent := by
  intro bounded
  have loads : circleAboveGroupGraph.CanLoad 2 0 := by
    unfold GroupGraph.CanLoad
    decide
  have offered := bounded circleAboveGroup circleAboveGroupReach circleAboveGroupGraph
    (.ofList [(0, .ofList [1, 2, 3, 4]), (1, .ofList [3]), (2, .ofList [3]), (3, ∅)])
    rfl rfl 2 0 loads 4 (by decide)
  revert offered
  decide

end Plan

end CodeSplit
