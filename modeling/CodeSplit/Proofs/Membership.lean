import CodeSplit.Plan
import CodeSplit.Proofs.Exploration
import CodeSplit.Proofs.Keyed

/-!
Which roots load in which groups. Reuse is followed through any number of pairs, so a group has its
own members and all roots that these lead to; the groups of a root are the same relation read from
the other side.
-/
namespace CodeSplit.Plan

open Relation (ReflTransGen)

/-- The first root loads the bundles of the second. -/
def Reuses (p : Plan) (reuser reused : AssetKey) : Prop := (reuser, reused) ∈ p.reused

variable {p : Plan}

theorem mem_reusedBy {a b : AssetKey} : b ∈ p.reusedBy a ↔ p.Reuses a b := by
  simp only [reusedBy, Reuses, List.mem_map, List.mem_filter, decide_eq_true_eq, KeySet.mem_def]
  constructor
  · rintro ⟨⟨x, y⟩, ⟨member, rfl⟩, rfl⟩
    exact member
  · intro member
    exact ⟨(a, b), ⟨member, rfl⟩, rfl⟩

theorem mem_reusersOf {a b : AssetKey} : a ∈ p.reusersOf b ↔ p.Reuses a b := by
  simp only [reusersOf, Reuses, List.mem_map, List.mem_filter, decide_eq_true_eq, KeySet.mem_def]
  constructor
  · rintro ⟨⟨x, y⟩, ⟨member, rfl⟩, rfl⟩
    exact member
  · intro member
    exact ⟨(a, b), ⟨member, rfl⟩, rfl⟩

/-- Both roots of a pair are listed. -/
theorem mem_reuseRoots {a b : AssetKey} (pair : p.Reuses a b) :
    a ∈ p.reuseRoots ∧ b ∈ p.reuseRoots := by
  have listed : ∀ k ∈ [a, b], k ∈ p.reuseRoots := by
    intro k member
    show k ∈ KeySet.ofList _
    rw [KeySet.mem_ofList, List.mem_flatMap]
    exact ⟨(a, b), pair, member⟩
  exact ⟨listed a (by simp), listed b (by simp)⟩

theorem mem_reuseClosure {next : AssetKey → List AssetKey} {root x : AssetKey}
    (listed : ∀ k, next k ≠ [] → k ∈ p.reuseRoots) :
    x ∈ p.reuseClosure next root ↔ x ≠ root ∧ ReflTransGen (Walk.Follows next) root x := by
  rw [reuseClosure, KeySet.mem_erase, KeySet.mem_ofList, Walk.mem_explore_iff listed, and_comm]
  simp

/-- The roots loaded through reuse are the others at the end of a chain of pairs. -/
theorem mem_reusedClosure {root x : AssetKey} :
    x ∈ p.reusedClosure root ↔ x ≠ root ∧ ReflTransGen p.Reuses root x := by
  have step : Walk.Follows p.reusedBy = p.Reuses := by
    funext a b
    exact propext mem_reusedBy
  rw [reusedClosure, mem_reuseClosure, step]
  intro k some
  obtain ⟨b, member⟩ := List.exists_mem_of_ne_nil _ some
  exact (mem_reuseRoots (mem_reusedBy.1 member)).1

/-- The roots that load a root through reuse are the others at the start of a chain of pairs. -/
theorem mem_reusersClosure {root x : AssetKey} :
    x ∈ p.reusersClosure root ↔ x ≠ root ∧ ReflTransGen p.Reuses x root := by
  have step : Walk.Follows p.reusersOf = Function.swap p.Reuses := by
    funext a b
    exact propext mem_reusersOf
  rw [reusersClosure, mem_reuseClosure, step, Relation.reflTransGen_swap]
  intro k some
  obtain ⟨b, member⟩ := List.exists_mem_of_ne_nil _ some
  exact (mem_reuseRoots (mem_reusersOf.1 member)).2

theorem mem_ownMembers {group root : AssetKey} :
    root ∈ p.ownMembers group ↔ group ∈ p.groupsOf root :=
  KeyMap.mem_ofList_filter

/-- The root loads in the group: a member of the group leads to it through reuse. -/
def LoadsIn (p : Plan) (group root : AssetKey) : Prop :=
  ∃ member, group ∈ p.groupsOf member ∧ ReflTransGen p.Reuses member root

theorem mem_members {group root : AssetKey} : root ∈ p.members group ↔ p.LoadsIn group root := by
  simp only [members, reusedMembers, KeySet.mem_union, KeySet.mem_diff,
    KeySet.mem_unions_map, mem_ownMembers, LoadsIn]
  constructor
  · rintro (own | ⟨⟨member, own, reused⟩, _⟩)
    · exact ⟨root, own, .refl⟩
    · exact ⟨member, mem_ownMembers.1 own, (mem_reusedClosure.1 reused).2⟩
  · rintro ⟨member, own, chain⟩
    by_cases self : group ∈ p.groupsOf root
    · exact .inl self
    · refine .inr ⟨⟨member, mem_ownMembers.2 own, mem_reusedClosure.2 ⟨?_, chain⟩⟩, self⟩
      rintro rfl
      exact self own

theorem mem_allGroups {group root : AssetKey} :
    group ∈ p.allGroups root ↔ p.LoadsIn group root := by
  simp only [allGroups, KeySet.mem_union, KeySet.mem_unions_map, LoadsIn]
  constructor
  · rintro (own | ⟨reuser, closure, own⟩)
    · exact ⟨root, own, .refl⟩
    · exact ⟨reuser, own, (mem_reusersClosure.1 closure).2⟩
  · rintro ⟨member, own, chain⟩
    by_cases same : member = root
    · subst same
      exact .inl own
    · exact .inr ⟨member, mem_reusersClosure.2 ⟨same, chain⟩, own⟩

theorem mem_groupRoots {group : AssetKey} :
    group ∈ p.groupRoots ↔
      ∃ root, p.root? group = some root ∧ root.triggers.createsGroup = true := by
  simp only [groupRoots, root?, List.mem_map, List.mem_filter]
  constructor
  · rintro ⟨⟨k, root⟩, ⟨entry, creates⟩, rfl⟩
    exact ⟨root, KeyMap.get?_eq_some_iff.2 entry, creates⟩
  · rintro ⟨root, found, creates⟩
    exact ⟨(group, root), ⟨KeyMap.get?_eq_some_iff.1 found, creates⟩, rfl⟩

theorem nodup_groupRoots : p.groupRoots.Nodup := by
  unfold groupRoots
  have distinct := p.roots.nodup_keys
  unfold KeyMap.keys at distinct
  exact distinct.sublist (List.Sublist.map _ List.filter_sublist)

end CodeSplit.Plan
