import CodeSplit.Proofs.GroupAvailability
import Mathlib.Data.List.Find

/-!
Groups that can load each other in a circle. All groups of a circle are to have the same assets
available, namely those that every group which leads into the circle offers. Such a group offers
what was available to it and whatever is loaded within its own circle. There is only one way to
give each group what is offered to its circle, since fewer groups come before those that lead into
a circle.
-/
namespace CodeSplit.GroupGraph

open Relation (ReflTransGen TransGen)

variable {g : GroupGraph}

/-- Each of the two groups leads to the other. -/
def SameCircle (g : GroupGraph) (a b : AssetKey) : Prop :=
  ReflTransGen g.CanLoad a b ∧ ReflTransGen g.CanLoad b a

theorem SameCircle.refl (n : AssetKey) : g.SameCircle n n := ⟨.refl, .refl⟩

theorem SameCircle.symm {a b : AssetKey} (circle : g.SameCircle a b) : g.SameCircle b a :=
  ⟨circle.2, circle.1⟩

theorem SameCircle.trans {a b c : AssetKey} (first : g.SameCircle a b) (second : g.SameCircle b c) :
    g.SameCircle a c :=
  ⟨first.1.trans second.1, second.2.trans first.2⟩

theorem eq_of_sameCircle (acyclic : ∀ n, ¬TransGen g.CanLoad n n) {a b : AssetKey}
    (circle : g.SameCircle a b) : a = b := by
  rcases Relation.reflTransGen_iff_eq_or_transGen.1 circle.1 with same | there
  · exact same.symm
  · exact absurd (there.trans_left circle.2) (acyclic a)

theorem WellFormed.sameCircle_inside (wellFormed : g.WellFormed) {a b : AssetKey}
    (circle : g.SameCircle a b) (listed : b ∈ g.groups) : a ∈ g.groups := by
  rcases circle.1.cases_head with same | ⟨c, loads, _⟩
  · rwa [same]
  · exact (wellFormed.inside loads).1

theorem WellFormed.mem_ancestors (wellFormed : g.WellFormed) {a b : AssetKey} :
    a ∈ g.ancestors b ↔ ReflTransGen g.CanLoad a b := by
  have step : Walk.Follows (fun n => (g.parentsOf n).toList) = Function.swap g.CanLoad := rfl
  have covered : ∀ n, (g.parentsOf n).toList ≠ [] → n ∈ g.groups := by
    intro n some
    obtain ⟨parent, loads⟩ := List.exists_mem_of_ne_nil _ some
    exact (wellFormed.inside (show g.CanLoad parent n from loads)).2
  rw [ancestors, KeySet.mem_ofList, Walk.mem_explore_iff covered, step]
  simp only [List.mem_singleton, exists_eq_left, Relation.reflTransGen_swap]

/-- A group of the circle loads the asset. -/
def CircleLoads (g : GroupGraph) (n x : AssetKey) : Prop :=
  ∃ other, g.SameCircle other n ∧ x ∈ g.loadedBy other

/-- A group outside of a circle can load one inside it. -/
def LeadsInto (g : GroupGraph) (outside n : AssetKey) : Prop :=
  ¬g.SameCircle outside n ∧ ∃ inside, g.SameCircle inside n ∧ g.CanLoad outside inside

theorem WellFormed.leadsInto_inside (wellFormed : g.WellFormed) {outside n : AssetKey}
    (leads : g.LeadsInto outside n) : outside ∈ g.groups := by
  obtain ⟨_, _, _, loads⟩ := leads
  exact (wellFormed.inside loads).1

/-- All groups that lead into the circle of `n`, at least one, have the asset available or load it
within their circles. -/
def OfferedToCircle (g : GroupGraph) (available : KeyMap AssetKey (KeySet AssetKey))
    (n x : AssetKey) : Prop :=
  (∃ outside, g.LeadsInto outside n) ∧
    ∀ outside, g.LeadsInto outside n → x ∈ available.setAt outside ∨ g.CircleLoads outside x

/-- Fewer groups come before a group that leads into the circle of another. -/
theorem WellFormed.size_ancestors_lt (wellFormed : g.WellFormed) {outside n : AssetKey}
    (leads : g.LeadsInto outside n) :
    (g.ancestors outside).size < (g.ancestors n).size := by
  obtain ⟨apart, inside, circle, loads⟩ := leads
  have before : Relation.ReflTransGen g.CanLoad outside n := circle.1.head loads
  have new : n ∉ (g.ancestors outside).toList := by
    intro back
    exact apart ⟨before, wellFormed.mem_ancestors.1 back⟩
  have subset : n :: (g.ancestors outside).toList ⊆ (g.ancestors n).toList := by
    intro m listed
    rcases List.mem_cons.1 listed with rfl | earlier
    · exact wellFormed.mem_ancestors.2 .refl
    · exact wellFormed.mem_ancestors.2 ((wellFormed.mem_ancestors.1 earlier).trans before)
  exact (List.nodup_cons.2 ⟨new, (g.ancestors outside).nodup_toList⟩).length_le_of_subset subset

/-- Two availabilities of the same groups in which every group has what is offered to its circle. -/
theorem WellFormed.eq_of_offeredToCircle (wellFormed : g.WellFormed)
    {available other : KeyMap AssetKey (KeySet AssetKey)}
    (groups : ∀ n,
      (∃ assets, available.get? n = some assets) ↔ ∃ assets, other.get? n = some assets)
    (offered : ∀ n x, x ∈ available.setAt n ↔ g.OfferedToCircle available n x)
    (otherOffered : ∀ n x, x ∈ other.setAt n ↔ g.OfferedToCircle other n x) :
    available = other := by
  apply KeyMap.eq_of_setAt groups
  intro n x
  -- by induction on the number of groups that can come before
  generalize size : (g.ancestors n).size = count
  induction count using Nat.strongRecOn generalizing n with
  | ind count ih =>
    subst size
    rw [offered, otherOffered]
    refine and_congr_right fun _ => forall₂_congr fun outside leads => ?_
    rw [ih _ (wellFormed.size_ancestors_lt leads) outside rfl]

/-- Where nothing leads back, a circle is one group. -/
theorem offeredToCircle_iff (acyclic : ∀ n, ¬TransGen g.CanLoad n n)
    {available : KeyMap AssetKey (KeySet AssetKey)} {n x : AssetKey} :
    g.OfferedToCircle available n x ↔ g.OfferedTo available n x := by
  have alone {a b : AssetKey} : g.SameCircle a b ↔ a = b := by
    constructor
    · intro circle
      exact eq_of_sameCircle acyclic circle
    · intro same
      exact same ▸ .refl a
  have leads {outside : AssetKey} : g.LeadsInto outside n ↔ g.CanLoad outside n := by
    simp only [LeadsInto, alone, exists_eq_left]
    constructor
    · intro leads
      exact leads.2
    · intro loads
      refine ⟨?_, loads⟩
      rintro rfl
      exact acyclic outside (.single loads)
  have loads {outside : AssetKey} : g.CircleLoads outside x ↔ x ∈ g.loadedBy outside := by
    simp only [CircleLoads, alone, exists_eq_left]
  simp only [OfferedToCircle, OfferedTo, leads, loads]

end CodeSplit.GroupGraph
