import CodeSplit.Plan.Groups
import CodeSplit.Proofs.Membership

/-!
Why a root belongs to a group. Membership starts at the root that has the group and is passed on
along edges that create none; each step of the assignment only adds members, and adds them for that
reason.
-/
namespace CodeSplit.Plan

variable {p : Plan} {groups larger : KeyMap AssetKey (KeySet AssetKey)}

/-- The root belongs to the group since it has it, or since it is loaded along with a root that
belongs to it. -/
inductive Joins (p : Plan) (groups : KeyMap AssetKey (KeySet AssetKey)) (group : AssetKey) :
    AssetKey → Prop
  | own {root : Root} : p.root? group = some root → root.triggers.createsGroup = true →
      group ∈ groups.setAt group → Joins p groups group group
  | along {e : BundleEdge} : e ∈ p.edges → e.triggers.createsGroup = false →
      Joins p groups group e.source → group ∈ groups.setAt e.target → Joins p groups group e.target

theorem Joins.mem {group member : AssetKey} (joins : Joins p groups group member) :
    group ∈ groups.setAt member := by
  cases joins with
  | own _ _ mem => exact mem
  | along _ _ _ mem => exact mem

theorem Joins.mono (grows : ∀ k, ∀ z ∈ groups.setAt k, z ∈ larger.setAt k)
    {group member : AssetKey} (joins : Joins p groups group member) :
    Joins p larger group member := by
  induction joins with
  | own found creates mem => exact .own found creates (grows _ _ mem)
  | along listed joint _ mem ih => exact .along listed joint ih (grows _ _ mem)

/-- What an edge that creates no group does: its target joins the groups of its source. -/
theorem mem_spreadGroups {e : BundleEdge} {k z : AssetKey} :
    z ∈ (spreadGroups groups e).setAt k ↔ z ∈ groups.setAt k ∨
      (e.triggers.createsGroup = false ∧ e.target = k ∧ z ∈ groups.setAt e.source) := by
  unfold spreadGroups
  by_cases creates : e.triggers.createsGroup = true
  · simp [creates]
  · rw [Bool.not_eq_true] at creates
    by_cases self : e.source = e.target
    · simp only [creates, self, decide_true, Bool.or_true, if_true, true_and]
      constructor
      · intro member
        exact .inl member
      · intro found
        rcases found with member | ⟨rfl, member⟩
        · exact member
        · exact member
    · simp only [creates, self, decide_false, Bool.or_false, Bool.false_eq_true, if_false,
        KeyMap.setAt, KeyMap.get?_update, true_and]
      by_cases here : e.target = k
      · simp [here]
      · simp [here]

/-- What every spreading step keeps, the assignment keeps. -/
theorem settleGroups_induction {edges : List BundleEdge}
    (motive : KeyMap AssetKey (KeySet AssetKey) → Prop)
    (step : ∀ groups, ∀ e ∈ edges, motive groups → motive (spreadGroups groups e)) :
    ∀ (fuel : Nat) (groups : KeyMap AssetKey (KeySet AssetKey)), motive groups →
      motive (settleGroups edges fuel groups).1
  | 0, _, start => start
  | fuel + 1, groups, start => by
    have round : motive (spreadAll edges groups) := by
      unfold spreadAll
      exact List.foldlRecOn edges spreadGroups start fun groups holds e member =>
        step groups e member holds
    unfold settleGroups
    simp only []
    split
    · exact round
    · exact settleGroups_induction motive step fuel _ round

theorem setAt_settledGroups_grows (p : Plan) {k z : AssetKey}
    (initial : z ∈ p.initialGroups.setAt k) : z ∈ p.settledGroups.1.setAt k := by
  refine settleGroups_induction (fun groups => z ∈ groups.setAt k) ?_ p.groupRounds _ initial
  intro groups e _ member
  exact mem_spreadGroups.2 (.inl member)

theorem mem_initialGroups {group member : AssetKey} :
    group ∈ p.initialGroups.setAt member ↔
      group = member ∧ ∃ root, p.root? group = some root ∧ root.triggers.createsGroup = true := by
  simp only [initialGroups, KeyMap.setAt, KeyMap.get?_map, root?]
  cases found : p.roots.get? member with
  | none =>
    simp only [Option.map_none, Option.getD_none, KeySet.not_mem_empty, false_iff]
    intro joined
    obtain ⟨rfl, root, known, _⟩ := joined
    rw [found] at known
    cases known
  | some root =>
    simp only [Option.map_some, Option.getD_some]
    by_cases creates : root.triggers.createsGroup = true
    · simp only [creates, if_true, KeySet.mem_singleton]
      constructor
      · intro same
        exact ⟨same, root, same ▸ found, creates⟩
      · intro joined
        exact joined.1
    · simp only [creates, Bool.false_eq_true, if_false, KeySet.not_mem_empty, false_iff]
      intro joined
      obtain ⟨rfl, other, known, creating⟩ := joined
      cases found.symm.trans known
      exact creates creating

/-- Every membership that the assignment finds has its reason. -/
theorem joins_of_mem_groupsOf {group member : AssetKey}
    (mem : group ∈ p.withGroups.groupsOf member) :
    Joins p p.withGroups.ownGroups group member := by
  have settled : ∀ group member, group ∈ p.settledGroups.1.setAt member →
      Joins p p.settledGroups.1 group member := by
    refine settleGroups_induction
      (fun groups => ∀ group member, group ∈ groups.setAt member → Joins p groups group member)
      ?_ p.groupRounds _ ?_
    · intro groups e listed justified group member mem
      have grows : ∀ k, ∀ z ∈ groups.setAt k, z ∈ (spreadGroups groups e).setAt k :=
        fun k z old => mem_spreadGroups.2 (.inl old)
      rcases mem_spreadGroups.1 mem with old | ⟨joint, rfl, passed⟩
      · exact (justified group member old).mono grows
      · exact .along listed joint ((justified group e.source passed).mono grows) mem
    · intro group member mem
      obtain ⟨rfl, root, found, creates⟩ := mem_initialGroups.1 mem
      exact .own found creates mem
  exact settled group member mem

end CodeSplit.Plan
