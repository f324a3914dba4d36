import CodeSplit.Proofs.GroupAssignment
import CodeSplit.Proofs.ParentGroups

/-!
Which roots package an asset. A root leaves an asset out if it can rely on others for it: on the
groups that have loaded before, on the roots it is loaded along with, or on the roots that it
reuses.
-/
namespace CodeSplit

namespace Reach

theorem exists_roots_iff {reach : Reach} {x : AssetKey} :
    (∃ roots, reach.byAsset.get? x = some roots) ↔ ∃ root, x ∈ reach.reachedBy root := by
  rw [reach.inStep.reached.get?_iff]
  exact exists_congr fun root => reach.inStep.agree root x

end Reach

namespace Plan

open Relation (ReflTransGen TransGen)

variable {p : Plan} {reach : Reach} {available : KeyMap AssetKey (KeySet AssetKey)}

theorem mem_availableInGroups {root x : AssetKey} :
    x ∈ p.availableInGroups available root ↔
      (∃ group, group ∈ p.groupsOf root) ∧
        ∀ group ∈ p.groupsOf root, x ∈ available.setAt group := by
  unfold availableInGroups
  rw [KeySet.mem_intersection?_getD]
  simp only [List.mem_map, ne_eq, List.map_eq_nil_iff, KeyMap.setAt]
  constructor
  · intro found
    obtain ⟨some, all⟩ := found
    exact ⟨List.exists_mem_of_ne_nil _ some, fun group member => all _ ⟨group, member, rfl⟩⟩
  · intro found
    obtain ⟨⟨group, member⟩, all⟩ := found
    refine ⟨List.ne_nil_of_mem member, ?_⟩
    intro assets listed
    obtain ⟨group, member, rfl⟩ := listed
    exact all group member

theorem mem_baseAvailability_of_createsGroup {key x : AssetKey} {root : Root}
    (creates : root.triggers.createsGroup = true) :
    x ∈ p.baseAvailability reach available key root ↔ x ∈ p.availableInGroups available key := by
  rw [baseAvailability, if_pos creates]

/-- A root without a group relies on what all roots offer that it is loaded along with. -/
theorem mem_baseAvailability_of_not_createsGroup {key x : AssetKey} {root : Root}
    (joint : root.triggers.createsGroup = false) :
    x ∈ p.baseAvailability reach available key root ↔
      (∃ e ∈ p.edges, e.target = key ∧ e.triggers.createsGroup = false) ∧
      ∀ e ∈ p.edges, e.target = key → e.triggers.createsGroup = false →
        x ∈ p.availableInGroups available e.source ∨ x ∈ reach.reachedBy e.source := by
  rw [baseAvailability, if_neg (by simp [joint])]
  simp only [KeySet.mem_intersection?_getD, List.mem_map, List.mem_filter, ne_eq,
    List.map_eq_nil_iff, Bool.and_eq_true, decide_eq_true_eq, Bool.not_eq_true']
  constructor
  · intro found
    obtain ⟨some, all⟩ := found
    obtain ⟨e, listed⟩ := List.exists_mem_of_ne_nil _ some
    simp only [List.mem_filter, Bool.and_eq_true, decide_eq_true_eq, Bool.not_eq_true'] at listed
    refine ⟨⟨e, listed⟩, ?_⟩
    intro e member target joint
    exact KeySet.mem_union.1 (all _ ⟨e, ⟨member, target, joint⟩, rfl⟩)
  · intro found
    obtain ⟨⟨e, listed⟩, all⟩ := found
    refine ⟨List.ne_nil_of_mem (a := e) (by simpa using listed), ?_⟩
    intro assets offered
    obtain ⟨e, ⟨member, target, joint⟩, rfl⟩ := offered
    exact KeySet.mem_union.2 (all e member target joint)

/-- The two ways to rely on others: on what has loaded wherever the root can load, or on a root that
is loaded through reuse. -/
theorem mem_rootAvailability {key x : AssetKey} {root : Root} :
    x ∈ p.rootAvailability reach available key root ↔
      root.triggers.startsEmpty = false ∧ root.isSingleFile = false ∧
      ((x ∈ p.baseAvailability reach available key root ∧
          ∀ reuser ∈ p.reusersClosure key, x ∈ p.availableInGroups available reuser) ∨
        ∃ reused ∈ p.reusedClosure key, x ∈ reach.reachedBy reused) := by
  unfold rootAvailability
  by_cases alone : (root.triggers.startsEmpty || root.isSingleFile) = true
  · rw [if_pos alone]
    refine iff_of_false (KeySet.not_mem_empty x) ?_
    intro relied
    simp [relied.1, relied.2.1] at alone
  · rw [if_neg alone, KeySet.mem_foldl_union, KeySet.mem_foldl_inter]
    rw [Bool.or_eq_true, not_or, Bool.not_eq_true, Bool.not_eq_true] at alone
    simp only [alone, true_and, KeySet.mem_def]

/-- The root can leave out the asset since it is loaded with others. -/
def ReliesOn (p : Plan) (reach : Reach) (available : KeyMap AssetKey (KeySet AssetKey))
    (key x : AssetKey) : Prop :=
  key ≠ x ∧ ∃ root, p.root? key = some root ∧ x ∈ p.rootAvailability reach available key root

theorem mem_packagers {known : KeyMap AssetKey (KeySet AssetKey)} {x m : AssetKey}
    {roots : KeySet AssetKey} :
    m ∈ packagers known x roots ↔ m ∈ roots ∧
      (¬(m ≠ x ∧ x ∈ known.setAt m) ∨ ∀ k ∈ roots, k ≠ x ∧ x ∈ known.setAt k) := by
  have needed (k : AssetKey) : (k = x || !(known.get? k).any fun s => decide (x ∈ s)) = true ↔
      ¬(k ≠ x ∧ x ∈ known.setAt k) := by
    cases found : known.get? k with
    | none => simp [KeyMap.setAt, found]
    | some s => simp [KeyMap.setAt, found, Decidable.imp_iff_not_or]
  unfold packagers
  simp only []
  split
  · rename_i empty
    rw [KeySet.isEmpty_iff] at empty
    simp only [KeySet.mem_filter, needed] at empty
    have all : ∀ k ∈ roots, k ≠ x ∧ x ∈ known.setAt k :=
      fun k member => by_contra fun needs => empty k ⟨member, needs⟩
    constructor
    · intro member
      exact ⟨member, .inr all⟩
    · intro member
      exact member.1
  · rename_i some
    rw [KeySet.isEmpty_iff] at some
    simp only [KeySet.mem_filter, needed] at some ⊢
    have notAll : ¬∀ k ∈ roots, k ≠ x ∧ x ∈ known.setAt k :=
      fun all => some fun k needs => needs.2 (all k needs.1)
    constructor
    · intro member
      exact ⟨member.1, .inl member.2⟩
    · intro member
      exact ⟨member.1, member.2.resolve_right notAll⟩

/-- The roots that package an asset are those that reach it and cannot rely on others for it, and
all that reach it if every one of them relies on others. -/
def IsPacking (p : Plan) (reach : Reach) (available packing : KeyMap AssetKey (KeySet AssetKey)) :
    Prop :=
  ∀ x m, m ∈ packing.setAt x ↔ x ∈ reach.reachedBy m ∧
    (¬p.ReliesOn reach available m x ∨
      ∀ k, x ∈ reach.reachedBy k → p.ReliesOn reach available k x)

theorem isPacking_of_consumers {i : Index} {packing : KeyMap AssetKey (KeySet AssetKey)}
    (success : (p.consumers i reach).result = .ok packing) :
    ∃ graph available, p.groupGraph reach = .ok graph ∧ graph.availability.result = .ok available ∧
      p.IsPacking reach available packing := by
  unfold consumers at success
  obtain ⟨graph, built, success⟩ := Report.result_bind_eq_ok.1 success
  obtain ⟨available, computed, success⟩ := Report.result_bind_eq_ok.1 success
  obtain ⟨_, _, success⟩ := Report.result_bind_eq_ok.1 success
  cases success
  refine ⟨graph, available, built, computed, ?_⟩
  intro x m
  have relies (k : AssetKey) : p.ReliesOn reach available k x ↔
      k ≠ x ∧ x ∈ (p.roots.map (p.rootAvailability reach available)).setAt k := by
    unfold ReliesOn
    cases found : p.roots.get? k with
    | none => simp [KeyMap.setAt, root?, found]
    | some root => simp [KeyMap.setAt, root?, found]
  cases found : reach.byAsset.get? x with
  | none =>
    have packed : (reach.byAsset.map
        (packagers (p.roots.map (p.rootAvailability reach available)))).setAt x = ∅ := by
      simp [KeyMap.setAt, found]
    rw [packed]
    refine iff_of_false (KeySet.not_mem_empty m) ?_
    rintro ⟨reached, _⟩
    obtain ⟨_, listed⟩ := Reach.exists_roots_iff.2 ⟨m, reached⟩
    cases found.symm.trans listed
  | some roots =>
    have packed : (reach.byAsset.map
        (packagers (p.roots.map (p.rootAvailability reach available)))).setAt x =
          packagers (p.roots.map (p.rootAvailability reach available)) x roots := by
      simp [KeyMap.setAt, found]
    have reaching (k : AssetKey) : k ∈ roots ↔ x ∈ reach.reachedBy k := by
      rw [← Reach.mem_rootsReaching, Reach.rootsReaching, KeyMap.setAt, found]
      rfl
    rw [packed]
    simp only [mem_packagers, reaching, relies]

/-- Only what some root reaches has consumers. -/
theorem reached_of_consumers {i : Index} {packing : KeyMap AssetKey (KeySet AssetKey)}
    (success : (p.consumers i reach).result = .ok packing) {x : AssetKey} {s : KeySet AssetKey}
    (found : packing.get? x = some s) : ∃ m, x ∈ reach.reachedBy m := by
  unfold consumers at success
  obtain ⟨graph, _, success⟩ := Report.result_bind_eq_ok.1 success
  obtain ⟨available, _, success⟩ := Report.result_bind_eq_ok.1 success
  obtain ⟨_, _, success⟩ := Report.result_bind_eq_ok.1 success
  cases success
  rw [KeyMap.get?_map] at found
  obtain ⟨roots, listed, _⟩ := Option.map_eq_some_iff.1 found
  exact Reach.exists_roots_iff.1 ⟨roots, listed⟩

end Plan

end CodeSplit
