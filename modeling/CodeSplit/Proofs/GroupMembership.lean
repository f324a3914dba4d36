import CodeSplit.Proofs.GroupClosure
import Mathlib.Order.Bounds.Defs

/-!
The assignment of groups, and who is in a group. Rounds of passing groups on end in the least
assignment that gives every group to its root and has nothing left to pass on, so the order of the
edges does not matter. Who is in a group can be asked for a group, from its members along the pairs
of reuse, or for a root, against these pairs; both ask for the same relation.
-/
namespace CodeSplit.Plan

open Relation (ReflTransGen)

variable {p : Plan} {edges : List BundleEdge}
  {groups final : KeyMap AssetKey (KeySet AssetKey)} {k : AssetKey}

/-- The edge passes groups on to this root, which then has an entry, be it an empty one. -/
def PassesTo (e : BundleEdge) (k : AssetKey) : Prop :=
  e.triggers.createsGroup = false ∧ e.source ≠ e.target ∧ e.target = k

theorem mem_keys_spreadGroups {e : BundleEdge} :
    k ∈ (spreadGroups groups e).keys ↔ k ∈ groups.keys ∨ PassesTo e k := by
  simp only [KeyMap.mem_keys_iff, PassesTo, spreadGroups]
  by_cases skipped : e.triggers.createsGroup = true ∨ e.source = e.target
  · have passesNothing :
        ¬(e.triggers.createsGroup = false ∧ e.source ≠ e.target ∧ e.target = k) := by grind
    simp [skipped, passesNothing]
  · simp only [not_or, Bool.not_eq_true] at skipped
    simp only [skipped.1, skipped.2, decide_false, Bool.or_false, Bool.false_eq_true, if_false,
      KeyMap.get?_update, ne_eq, not_false_eq_true, true_and]
    by_cases here : e.target = k
    · simp [here]
    · simp [here]

theorem mem_keys_spreadAll :
    k ∈ (spreadAll edges groups).keys ↔ k ∈ groups.keys ∨ ∃ e ∈ edges, PassesTo e k := by
  induction edges generalizing groups with
  | nil => simp [spreadAll]
  | cons e edges ih =>
    show k ∈ (spreadAll edges (spreadGroups groups e)).keys ↔ _
    rw [ih, mem_keys_spreadGroups]
    simp [or_assoc]

/-- The first round makes all entries that there will be. -/
theorem Rounds.mem_keys {count : Nat} (rounds : Rounds edges count groups final) :
    k ∈ final.keys ↔ k ∈ groups.keys ∨ ∃ e ∈ edges, PassesTo e k := by
  induction rounds with
  | last _ => exact mem_keys_spreadAll
  | more _ _ ih =>
    rw [ih, mem_keys_spreadAll]
    simp

theorem settleGroups_count_le (edges : List BundleEdge) (fuel : Nat)
    (groups : KeyMap AssetKey (KeySet AssetKey)) : (settleGroups edges fuel groups).2 ≤ fuel := by
  induction fuel generalizing groups with
  | zero => simp [settleGroups]
  | succ fuel ih =>
    simp only [settleGroups]
    split
    · simp
    · simpa using ih _

/-- Edges that are the same but for their order, or for repetitions, give the same groups. -/
theorem ownGroups_withGroups_congr (same : ∀ e, e ∈ edges ↔ e ∈ p.edges) :
    ({ p with edges } : Plan).withGroups.ownGroups = p.withGroups.ownGroups := by
  apply KeyMap.eq_of_setAt
  · intro k
    have left := (rounds_settledGroups { p with edges }).mem_keys (k := k)
    have right := (rounds_settledGroups p).mem_keys (k := k)
    rw [← KeyMap.mem_keys_iff, ← KeyMap.mem_keys_iff, left, right]
    simp only [same]
    rfl
  · intro k group
    have along : ({ p with edges } : Plan).LoadsAlong = p.LoadsAlong := by
      funext root other
      simp only [LoadsAlong, same]
    have left : group ∈ ({ p with edges } : Plan).withGroups.groupsOf k ↔ _ :=
      mem_groupsOf_withGroups
    rw [along] at left
    exact left.trans (mem_groupsOf_withGroups (p := p)).symm

/-- An assignment of groups to roots in which every group has its root, and nothing is left to pass
on. -/
def Closed (p : Plan) (assigned : AssetKey → Set AssetKey) : Prop :=
  (∀ group ∈ p.groupRoots, group ∈ assigned group) ∧
    ∀ e ∈ p.edges, e.triggers.createsGroup = false → assigned e.source ⊆ assigned e.target

theorem closed_withGroups (p : Plan) :
    p.Closed fun root => {g | g ∈ p.withGroups.groupsOf root} := by
  constructor
  · intro group isGroup
    exact mem_groupsOf_withGroups.2 ⟨isGroup, .refl⟩
  · exact settled_withGroups p

/-- Along a path, a closed assignment passes on what the path starts with. -/
theorem Closed.mem_of_path {assigned : AssetKey → Set AssetKey} (closed : p.Closed assigned)
    {group root : AssetKey} (isGroup : group ∈ p.groupRoots)
    (path : ReflTransGen p.LoadsAlong group root) : group ∈ assigned root := by
  induction path with
  | refl => exact closed.1 group isGroup
  | tail _ along ih =>
    obtain ⟨e, listed, joint, rfl, rfl⟩ := along
    exact closed.2 e listed joint ih

/-- The assignment of groups to the roots of any plan. Rounds of passing groups on end, within those
that are allotted, and what they end in is the least assignment that is closed: a root is in a group
exactly if edges that create no group lead to it from a root that has the group. The edges may be
listed in any order, and further ones take no root out of a group. -/
theorem group_assignment_is_least (p : Plan) :
    p.assignGroups.result = .ok p.withGroups ∧
      (∃ count ≤ p.groupRounds,
        Rounds p.edges count p.initialGroups p.withGroups.ownGroups) ∧
      IsLeast {assigned | p.Closed assigned} (fun root => {g | g ∈ p.withGroups.groupsOf root}) ∧
      (∀ group root, group ∈ p.withGroups.groupsOf root ↔
        group ∈ p.groupRoots ∧ ReflTransGen p.LoadsAlong group root) ∧
      (∀ edges, edges.Perm p.edges →
        ({ p with edges } : Plan).withGroups.ownGroups = p.withGroups.ownGroups) ∧
      ∀ more, (∀ e ∈ p.edges, e ∈ more) → ∀ group root, group ∈ p.withGroups.groupsOf root →
        group ∈ ({ p with edges := more } : Plan).withGroups.groupsOf root := by
  refine ⟨rfl, ⟨p.settledGroups.2, settleGroups_count_le _ _ _, rounds_settledGroups p⟩,
    ⟨closed_withGroups p, ?_⟩, ?_, ?_, ?_⟩
  · intro assigned closed root group member
    obtain ⟨isGroup, path⟩ := mem_groupsOf_withGroups.1 member
    exact closed.mem_of_path isGroup path
  · intro group root
    exact mem_groupsOf_withGroups
  · intro edges perm
    exact ownGroups_withGroups_congr fun e => perm.mem_iff
  · intro more larger group root member
    exact groupsOf_withGroups_mono (p := p) (q := { p with edges := more }) rfl larger member

/-- An entry that loads a circle of two chunks along with it, and a page on demand. The edges of the
circle are listed before the one that leads into it. -/
def chunkCircle : Plan where
  roots := .ofList [(0, { assetId := "index", triggers := { entry := true } }),
    (1, { assetId := "a", triggers := { parallel := true } }),
    (2, { assetId := "b", triggers := { parallel := true } }),
    (3, { assetId := "page", triggers := { lazy := true } })]
  edges := [⟨2, 1, 2, "b to a", { parallel := true }⟩, ⟨1, 2, 1, "a to b", { parallel := true }⟩,
    ⟨0, 1, 0, "index to a", { parallel := true }⟩, ⟨0, 3, 0, "index to page", { lazy := true }⟩]

/-- The page loads a chunk of the circle, too. -/
def pageToChunk : BundleEdge := ⟨3, 2, 3, "page to b", { parallel := true }⟩

/-- A chunk of the circle is in the group of the entry only. The edges the other way round give the
same groups, and the chunk stays in its group when the page loads it, too. -/
theorem chunkCircle_assigned :
    chunkCircle.withGroups.groupsOf 2 = .singleton 0 ∧
      ({ chunkCircle with edges := chunkCircle.edges.reverse } : Plan).withGroups.ownGroups =
        chunkCircle.withGroups.ownGroups ∧
      0 ∈ ({ chunkCircle with edges := pageToChunk :: chunkCircle.edges } :
        Plan).withGroups.groupsOf 2 := by
  have groups : chunkCircle.withGroups.groupsOf 2 = .singleton 0 := by decide +kernel
  obtain ⟨_, _, _, _, reordered, enlarged⟩ := group_assignment_is_least chunkCircle
  refine ⟨groups, reordered _ (List.reverse_perm _), ?_⟩
  refine enlarged _ (fun e listed => List.mem_cons_of_mem _ listed) 0 2 ?_
  rw [groups]
  exact KeySet.mem_singleton.2 rfl

/-- The members of a group, its own and those that are only reused, are the roots that have it among
all their groups: those to which pairs of reuse lead from a root that is assigned to it. No member
is both. What a root loads through reuse, followed along the pairs, agrees with what loads a root,
followed against them, and neither way finds the root it starts from. -/
theorem membership_views_agree (p : Plan) :
    (∀ group root, (root ∈ p.ownMembers group ∨ root ∈ p.reusedMembers group) ↔
        group ∈ p.allGroups root) ∧
      (∀ group root, group ∈ p.allGroups root ↔
        ∃ member, group ∈ p.groupsOf member ∧ ReflTransGen p.Reuses member root) ∧
      (∀ group root, ¬(root ∈ p.ownMembers group ∧ root ∈ p.reusedMembers group)) ∧
      (∀ root other, other ∈ p.reusedClosure root ↔ root ∈ p.reusersClosure other) ∧
      ∀ root other, other ∈ p.reusedClosure root ↔
        other ≠ root ∧ ReflTransGen p.Reuses root other := by
  refine ⟨?_, ?_, ?_, ?_, ?_⟩
  · intro group root
    rw [mem_allGroups, ← mem_members, members, KeySet.mem_union]
  · intro group root
    exact mem_allGroups
  · intro group root both
    exact (KeySet.mem_diff.1 both.2).2 both.1
  · intro root other
    rw [mem_reusedClosure, mem_reusersClosure, ne_comm]
  · intro root other
    exact mem_reusedClosure

end CodeSplit.Plan
