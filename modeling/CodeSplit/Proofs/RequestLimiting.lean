import CodeSplit.Proofs.GroupAssignment
import CodeSplit.Proofs.RemovalSteps
import CodeSplit.Proofs.ReusedRemoval

/-!
Keeping to the limit on parallel requests. In a plan in which every root that has a group loads in
that group only, reuse apart, no removal takes an asset away from a group or lets a group load
another one that it could not load before; hence the whole limiting does neither.
-/
namespace CodeSplit

namespace Plan

variable {p q r : Plan} {i : Index} {group x : AssetKey}

/-- All edges lead to groups, and a root is in its own group only, reuse apart. -/
structure Separated (p : Plan) : Prop where
  edges : ∀ e ∈ p.edges, e.triggers.createsGroup = true
  groups : ∀ group root, group ∈ p.groupsOf root ↔ group = root ∧ group ∈ p.groupRoots

theorem separated_withGroups (edges : ∀ e ∈ p.edges, e.triggers.createsGroup = true) :
    Separated p.withGroups := by
  refine ⟨edges, ?_⟩
  intro group root
  constructor
  · intro member
    cases joins_of_mem_groupsOf member with
    | own found creates => exact ⟨rfl, mem_groupRoots.2 ⟨_, found, creates⟩⟩
    | along listed joint =>
      rw [edges _ listed] at joint
      cases joint
  · intro found
    obtain ⟨rfl, own⟩ := found
    obtain ⟨root, known, creates⟩ := mem_groupRoots.1 own
    exact setAt_settledGroups_grows p (mem_initialGroups.2 ⟨rfl, root, known, creates⟩)

/-- Later plans of the same roots: groups hold no less and load no more. -/
structure Reduces (p q : Plan) : Prop where
  roots : q.roots = p.roots
  loads : ∀ group child, q.LoadsGroup group child → p.LoadsGroup group child
  holds : ∀ group x, p.GroupHolds group x → q.GroupHolds group x

theorem Reduces.refl (p : Plan) : Reduces p p := ⟨rfl, fun _ _ h => h, fun _ _ h => h⟩

theorem Reduces.trans (first : Reduces p q) (second : Reduces q r) : Reduces p r where
  roots := second.roots.trans first.roots
  loads group child h := first.loads group child (second.loads group child h)
  holds group x h := second.holds group x (first.holds group x h)

theorem SameShape.loadsGroup (same : SameShape p q) {child : AssetKey}
    (loads : q.LoadsGroup group child) : p.LoadsGroup group child := by
  obtain ⟨other, e, listed, target, passes, inGroup⟩ := loads
  rw [same.edges] at listed
  rw [passesAvailability_congr same.roots] at passes
  exact ⟨other, e, listed, target, passes, same.loadsIn_iff.1 inGroup⟩

theorem Enriches.reduces (enriches : Enriches p q) : Reduces p q := by
  refine ⟨enriches.roots, fun _ _ loads => enriches.loadsGroup loads, ?_⟩
  intro group x held
  obtain ⟨m, member, held⟩ := held
  exact ⟨m, mem_members.2 (enriches.loadsIn_iff.2 (mem_members.1 member)), enriches.holds m x held⟩

theorem Separated.of_sameShape (separated : Separated p) (same : SameShape p q) : Separated q := by
  constructor
  · rw [same.edges]
    exact separated.edges
  · unfold groupsOf groupRoots
    rw [same.ownGroups, same.roots]
    exact separated.groups

theorem separated_removeReused (separated : Separated p) (reused : AssetKey)
    (reusers : KeySet AssetKey) : Separated (p.removeReused reused reusers).withGroups := by
  apply separated_withGroups
  intro e listed
  rcases ((spreads_removeReused p reused reusers).edges e).1 listed with
    old | ⟨_, _, old, member, _, _, rfl⟩
  · exact separated.edges e old
  · exact separated.edges old member

theorem reduces_removeReused (separated : Separated p) {reused : AssetKey}
    {reusers : KeySet AssetKey} (reusing : ∀ reuser ∈ reusers, p.Reuses reuser reused) :
    Reduces p (p.removeReused reused reusers).withGroups := by
  have spreads := (spreads_removeReused p reused reusers).withGroups
  have later := separated_removeReused separated reused reusers
  have groups (group root : AssetKey) :
      group ∈ (p.removeReused reused reusers).withGroups.groupsOf root ↔
        group ∈ p.groupsOf root := by
    rw [later.groups, separated.groups]
    unfold groupRoots
    rw [spreads.roots]
  refine ⟨spreads.roots, ?_, ?_⟩
  · intro group child loads
    exact spreads.loadsGroup reusing (fun root z member => (groups z root).1 member) loads
  · intro group x held
    exact spreads.groupHolds (fun root z member => (groups z root).2 member) held

/-- A removal enriches the plan; or it spreads a reused root over roots that reuse it, and what
follows enriches the result. -/
theorem Removes.effects (removes : p.Removes i group q) :
    Enriches p q ∨ ∃ reused reusers, (∀ reuser ∈ reusers, p.Reuses reuser reused) ∧
      Spreads p reused reusers.toList (p.removeReused reused reusers).withGroups ∧
      Enriches (p.removeReused reused reusers).withGroups q := by
  rcases removes.cases with ⟨place, b, _, _, pruned⟩ | ⟨reused, reusers, _, reusing, pruned⟩
  · exact .inl ((enriches_removeShared p place _).trans (enriches_prune pruned))
  · exact .inr ⟨reused, reusers, fun reuser taker => ((reusing reuser).1 taker).2,
      (spreads_removeReused p reused reusers).withGroups, enriches_prune pruned⟩

theorem Removes.roots (removes : p.Removes i group q) : q.roots = p.roots := by
  rcases removes.effects with enriches | ⟨_, _, _, spreads, enriches⟩
  · exact enriches.roots
  · exact enriches.roots.trans spreads.roots

theorem roots_limitRequests {config : Config}
    (success : (p.limitRequests i config).result = .ok q) : q.roots = p.roots := by
  obtain ⟨_, run⟩ := removesIn_of_limitRequests success
  exact run.keeps (motive := fun q => q.roots = p.roots)
    (fun _ _ _ same removes => removes.roots.trans same) rfl

/-- A removal takes nothing away from a root. -/
theorem Removes.holds {root : AssetKey} (removes : p.Removes i group q) (held : p.Holds root x) :
    q.Holds root x := by
  rcases removes.effects with enriches | ⟨_, _, _, spreads, enriches⟩
  · exact enriches.holds root x held
  · exact enriches.holds root x (spreads.keeps.holds held)

theorem Removes.reduces (removes : p.Removes i group q) (separated : Separated p) :
    Separated q ∧ Reduces p q := by
  rcases removes.effects with enriches | ⟨reused, reusers, reusing, _, enriches⟩
  · exact ⟨separated.of_sameShape enriches.toSameShape, enriches.reduces⟩
  · have removed := reduces_removeReused separated reusing
    exact ⟨(separated_removeReused separated reused reusers).of_sameShape enriches.toSameShape,
      removed.trans enriches.reduces⟩

theorem reduces_limitRequests {config : Config} (separated : Separated p)
    (success : (p.limitRequests i config).result = .ok q) : Reduces p q := by
  obtain ⟨_, run⟩ := removesIn_of_limitRequests success
  have kept : Separated q ∧ Reduces p q := by
    refine run.keeps (motive := fun q => Separated q ∧ Reduces p q) ?_ ⟨separated, .refl p⟩
    rintro before group after ⟨separated, reduces⟩ removes
    obtain ⟨separated, later⟩ := removes.reduces separated
    exact ⟨separated, reduces.trans later⟩
  exact kept.2

end Plan

end CodeSplit
