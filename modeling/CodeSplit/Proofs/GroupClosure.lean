import CodeSplit.Proofs.GroupAssignment
import Mathlib.Data.List.Perm.Subperm

/-!
The assignment of groups finds every membership. Rounds only add memberships, of which there are no
more than pairs of a root and a group, so the rounds allotted are enough to come to one that adds
nothing; then every edge that creates no group has passed on what its source has. Hence a root
belongs to a group exactly if such edges lead to it from the root of the group, and more edges never
take a root out of a group.
-/
namespace CodeSplit.Plan

open Relation (ReflTransGen)

variable {p q : Plan} {edges : List BundleEdge}
  {groups larger : KeyMap AssetKey (KeySet AssetKey)} {group k z : AssetKey}

/-- The pairs of a root and a group of it. -/
def memberships (groups : KeyMap AssetKey (KeySet AssetKey)) : List (AssetKey × AssetKey) :=
  groups.entries.flatMap fun e => e.2.toList.map fun group => (e.1, group)

theorem mem_memberships : (k, z) ∈ memberships groups ↔ z ∈ groups.setAt k := by
  simp only [memberships, List.mem_flatMap, List.mem_map, Prod.mk.injEq, KeyMap.mem_setAt_iff]
  constructor
  · rintro ⟨⟨key, s⟩, entry, group, member, rfl, rfl⟩
    exact ⟨s, KeyMap.get?_eq_some_iff.2 entry, member⟩
  · rintro ⟨s, entry, member⟩
    exact ⟨(k, s), KeyMap.get?_eq_some_iff.1 entry, z, member, rfl, rfl⟩

theorem nodup_memberships : (memberships groups).Nodup := by
  unfold memberships
  rw [List.nodup_flatMap]
  constructor
  · intro e _
    exact e.2.nodup_toList.map fun a b same => (Prod.mk.inj same).2
  · refine groups.ascending.imp ?_
    intro a b earlier pair left right
    obtain ⟨_, _, rfl⟩ := List.mem_map.1 left
    obtain ⟨_, _, same⟩ := List.mem_map.1 right
    exact KeyOrder.ne_of_before earlier (Prod.mk.inj same).1.symm

theorem length_memberships (groups : KeyMap AssetKey (KeySet AssetKey)) :
    (memberships groups).length = membershipCount groups := by
  unfold memberships membershipCount KeyMap.values
  induction groups.entries with
  | nil => rfl
  | cons e entries ih =>
    simp only [List.flatMap_cons, List.length_append, List.length_map, List.map_cons, total_cons,
      ih, KeySet.size]

/-- Where more memberships are not more in number, they are the same. -/
theorem mem_setAt_of_membershipCount_eq
    (grows : ∀ k, ∀ z ∈ groups.setAt k, z ∈ larger.setAt k)
    (same : membershipCount larger = membershipCount groups) (member : z ∈ larger.setAt k) :
    z ∈ groups.setAt k := by
  have included : memberships groups ⊆ memberships larger := by
    rintro ⟨k, z⟩ old
    exact mem_memberships.2 (grows k z (mem_memberships.1 old))
  have perm : (memberships groups).Perm (memberships larger) := by
    refine (nodup_memberships.subperm included).perm_of_length_le ?_
    rw [length_memberships, length_memberships, same]
  exact mem_memberships.1 (perm.mem_iff.2 (mem_memberships.2 member))

theorem membershipCount_le {hosts homes : List AssetKey}
    (inside : ∀ k, ∀ z ∈ groups.setAt k, k ∈ hosts ∧ z ∈ homes) :
    membershipCount groups ≤ hosts.length * homes.length := by
  rw [← length_memberships, ← List.length_product]
  apply nodup_memberships.length_le_of_subset
  rintro ⟨k, z⟩ member
  exact List.mem_product.2 (inside k z (mem_memberships.1 member))

/-- Every edge that creates no group has passed on the groups of its source. -/
def Settled (edges : List BundleEdge) (groups : KeyMap AssetKey (KeySet AssetKey)) : Prop :=
  ∀ e ∈ edges, e.triggers.createsGroup = false →
    ∀ z ∈ groups.setAt e.source, z ∈ groups.setAt e.target

theorem setAt_spreadAll_grows (edges : List BundleEdge) (member : z ∈ groups.setAt k) :
    z ∈ (spreadAll edges groups).setAt k := by
  induction edges generalizing groups with
  | nil => exact member
  | cons e edges ih => exact ih (mem_spreadGroups.2 (.inl member))

/-- A round passes on at least what each source had before it. -/
theorem mem_spreadAll_of_edge {e : BundleEdge} (listed : e ∈ edges)
    (joint : e.triggers.createsGroup = false) (member : z ∈ groups.setAt e.source) :
    z ∈ (spreadAll edges groups).setAt e.target := by
  induction edges generalizing groups with
  | nil => cases listed
  | cons first edges ih =>
    rcases List.mem_cons.1 listed with rfl | later
    · exact setAt_spreadAll_grows edges (mem_spreadGroups.2 (.inr ⟨joint, rfl, member⟩))
    · exact ih later (mem_spreadGroups.2 (.inl member))

theorem spreadAll_inside {hosts homes : List AssetKey} (targets : ∀ e ∈ edges, e.target ∈ hosts)
    (inside : ∀ k, ∀ z ∈ groups.setAt k, k ∈ hosts ∧ z ∈ homes) :
    ∀ k, ∀ z ∈ (spreadAll edges groups).setAt k, k ∈ hosts ∧ z ∈ homes := by
  induction edges generalizing groups with
  | nil => exact inside
  | cons e edges ih =>
    refine ih (fun e later => targets e (List.mem_cons_of_mem _ later)) ?_
    intro k z member
    rcases mem_spreadGroups.1 member with old | ⟨_, rfl, passed⟩
    · exact inside k z old
    · exact ⟨targets e List.mem_cons_self, (inside e.source z passed).2⟩

theorem membershipCount_le_spreadAll (edges : List BundleEdge)
    (groups : KeyMap AssetKey (KeySet AssetKey)) :
    membershipCount groups ≤ membershipCount (spreadAll edges groups) := by
  rw [← length_memberships, ← length_memberships]
  apply nodup_memberships.length_le_of_subset
  rintro ⟨k, z⟩ old
  exact mem_memberships.2 (setAt_spreadAll_grows edges (mem_memberships.1 old))

/-- A round that adds no membership leaves nothing to pass on. -/
theorem settled_of_unchanged
    (same : membershipCount (spreadAll edges groups) = membershipCount groups) :
    Settled edges (spreadAll edges groups) := by
  intro e listed joint z member
  have before : z ∈ groups.setAt e.source :=
    mem_setAt_of_membershipCount_eq (fun _ _ => setAt_spreadAll_grows edges) same member
  exact mem_spreadAll_of_edge listed joint before

/-- A round makes some root a member of a group that it was not in. -/
def AddsMember (edges : List BundleEdge) (groups : KeyMap AssetKey (KeySet AssetKey)) : Prop :=
  ∃ k, ∃ z ∈ (spreadAll edges groups).setAt k, z ∉ groups.setAt k

theorem membershipCount_spreadAll_eq_iff :
    membershipCount (spreadAll edges groups) = membershipCount groups ↔
      ¬AddsMember edges groups := by
  constructor
  · rintro same ⟨k, z, member, absent⟩
    exact absent (mem_setAt_of_membershipCount_eq (fun _ _ => setAt_spreadAll_grows edges) same
      member)
  · intro none
    have same : memberships (spreadAll edges groups) ⊆ memberships groups := by
      rintro ⟨k, z⟩ member
      by_contra absent
      exact none ⟨k, z, mem_memberships.1 member, fun old => absent (mem_memberships.2 old)⟩
    have fewer := nodup_memberships.length_le_of_subset same
    have more := membershipCount_le_spreadAll edges groups
    rw [length_memberships, length_memberships] at fewer
    omega

/-- Rounds one after the other, of which the last and no other adds no member. -/
inductive Rounds (edges : List BundleEdge) :
    Nat → KeyMap AssetKey (KeySet AssetKey) → KeyMap AssetKey (KeySet AssetKey) → Prop
  | last {groups : KeyMap AssetKey (KeySet AssetKey)} : ¬AddsMember edges groups →
      Rounds edges 1 groups (spreadAll edges groups)
  | more {count : Nat} {groups settled : KeyMap AssetKey (KeySet AssetKey)} :
      AddsMember edges groups → Rounds edges count (spreadAll edges groups) settled →
      Rounds edges (count + 1) groups settled

theorem Rounds.settled {count : Nat} {final : KeyMap AssetKey (KeySet AssetKey)}
    (rounds : Rounds edges count groups final) : Settled edges final := by
  induction rounds with
  | last none => exact settled_of_unchanged (membershipCount_spreadAll_eq_iff.2 none)
  | more _ _ ih => exact ih

/-- With a round for every membership that can still be added, the rounds end. -/
theorem rounds_settleGroups {hosts homes : List AssetKey}
    (targets : ∀ e ∈ edges, e.target ∈ hosts) (fuel : Nat)
    (inside : ∀ k, ∀ z ∈ groups.setAt k, k ∈ hosts ∧ z ∈ homes)
    (enough : hosts.length * homes.length < membershipCount groups + fuel) :
    Rounds edges (settleGroups edges fuel groups).2 groups (settleGroups edges fuel groups).1 := by
  induction fuel generalizing groups with
  | zero =>
    have bound := membershipCount_le inside
    omega
  | succ fuel ih =>
    simp only [settleGroups]
    split
    · rename_i same
      exact .last (membershipCount_spreadAll_eq_iff.1 same)
    · rename_i changed
      have adds : AddsMember edges groups := by
        by_contra none
        exact changed (membershipCount_spreadAll_eq_iff.2 none)
      have more := membershipCount_le_spreadAll edges groups
      exact .more adds (ih (spreadAll_inside targets inside) (by omega))

/-- The rounds that are allotted to a plan are enough. -/
theorem rounds_settledGroups (p : Plan) :
    Rounds p.edges p.settledGroups.2 p.initialGroups p.withGroups.ownGroups := by
  have targets : ∀ e ∈ p.edges, e.target ∈ p.roots.keys ++ p.edges.map BundleEdge.target :=
    fun e listed => List.mem_append_right _ (List.mem_map.2 ⟨e, listed, rfl⟩)
  have inside : ∀ k, ∀ z ∈ p.initialGroups.setAt k,
      k ∈ p.roots.keys ++ p.edges.map BundleEdge.target ∧ z ∈ p.roots.keys := by
    intro k z member
    obtain ⟨rfl, root, found, _⟩ := mem_initialGroups.1 member
    have listed : z ∈ p.roots.keys := KeyMap.mem_keys_iff.2 ⟨root, found⟩
    exact ⟨List.mem_append_left _ listed, listed⟩
  have rounds : p.groupRounds = (p.roots.keys ++ p.edges.map BundleEdge.target).length *
      p.roots.keys.length + 1 := by
    simp [groupRounds, KeyMap.keys, KeyMap.size]
  exact rounds_settleGroups targets p.groupRounds inside (by omega)

theorem settled_withGroups (p : Plan) : Settled p.edges p.withGroups.ownGroups :=
  (rounds_settledGroups p).settled

/-- The second root loads along with the first. -/
def LoadsAlong (p : Plan) (root other : AssetKey) : Prop :=
  ∃ e ∈ p.edges, e.triggers.createsGroup = false ∧ e.source = root ∧ e.target = other

/-- A root belongs to a group exactly if it is loaded along with the root of the group. -/
theorem mem_groupsOf_withGroups :
    group ∈ p.withGroups.groupsOf k ↔
      group ∈ p.groupRoots ∧ ReflTransGen p.LoadsAlong group k := by
  constructor
  · intro member
    induction joins_of_mem_groupsOf member with
    | own found creates _ => exact ⟨mem_groupRoots.2 ⟨_, found, creates⟩, .refl⟩
    | along listed joint joins _ ih =>
      obtain ⟨isGroup, path⟩ := ih joins.mem
      exact ⟨isGroup, path.tail ⟨_, listed, joint, rfl, rfl⟩⟩
  · rintro ⟨isGroup, path⟩
    induction path with
    | refl =>
      obtain ⟨root, found, creates⟩ := mem_groupRoots.1 isGroup
      exact setAt_settledGroups_grows p (mem_initialGroups.2 ⟨rfl, root, found, creates⟩)
    | tail _ along ih =>
      obtain ⟨e, listed, joint, rfl, rfl⟩ := along
      exact settled_withGroups p e listed joint group ih

/-- Adding edges takes no root out of a group. -/
theorem groupsOf_withGroups_mono (sameRoots : q.roots = p.roots)
    (moreEdges : ∀ e ∈ p.edges, e ∈ q.edges) (member : group ∈ p.withGroups.groupsOf k) :
    group ∈ q.withGroups.groupsOf k := by
  obtain ⟨isGroup, path⟩ := mem_groupsOf_withGroups.1 member
  refine mem_groupsOf_withGroups.2 ⟨?_, ReflTransGen.mono ?_ _ _ path⟩
  · unfold groupRoots
    rw [sameRoots]
    exact isGroup
  · rintro a b ⟨e, listed, along⟩
    exact ⟨e, moreEdges e listed, along⟩

end CodeSplit.Plan
