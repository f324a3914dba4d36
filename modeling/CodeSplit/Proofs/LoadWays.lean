import CodeSplit.Proofs.CircleAvailability

/-!
Availability over all ways to a group. A way starts with a group that nothing can load, and leads
from each group to one that it can load. Where no group can come to load itself, an asset is
available to a group exactly if every way to the group passes one that loads the asset. This is so
for every order of the groups that has parents first, and if availability is computed by circles,
however these are listed and ordered.
-/
namespace CodeSplit

namespace GroupGraph

open Relation (TransGen)

variable {g : GroupGraph} {n x : AssetKey} {order : List AssetKey}
  {available : KeyMap AssetKey (KeySet AssetKey)}

/-- The groups before `n` on a way to it, in the order in which they load. -/
inductive Way (g : GroupGraph) : List AssetKey → AssetKey → Prop
  | start {n : AssetKey} : (∀ parent, ¬g.CanLoad parent n) → Way g [] n
  | load {before : List AssetKey} {parent n : AssetKey} : Way g before parent →
      g.CanLoad parent n → Way g (before ++ [parent]) n

/-- Every way to the group passes one that loads the asset. -/
def LoadedOnEveryWay (g : GroupGraph) (n x : AssetKey) : Prop :=
  ∀ before, g.Way before n → ∃ passed ∈ before, x ∈ g.loadedBy passed

/-- One step back along all ways: every way passes a group that loads the asset exactly if there is
a parent, and each parent loads it or has it loaded on every way to itself. -/
theorem loadedOnEveryWay_iff :
    g.LoadedOnEveryWay n x ↔ (∃ parent, g.CanLoad parent n) ∧
      ∀ parent, g.CanLoad parent n → g.LoadedOnEveryWay parent x ∨ x ∈ g.loadedBy parent := by
  constructor
  · intro loaded
    refine ⟨?_, ?_⟩
    · by_contra none
      obtain ⟨passed, member, _⟩ := loaded [] (.start fun parent loads => none ⟨parent, loads⟩)
      exact absurd member List.not_mem_nil
    · intro parent loads
      by_cases now : x ∈ g.loadedBy parent
      · exact .inr now
      · -- whatever loads the asset on the longer way is not the parent, so it comes before it
        refine .inl fun before way => ?_
        obtain ⟨passed, member, held⟩ := loaded (before ++ [parent]) (way.load loads)
        rcases List.mem_append.1 member with earlier | last
        · exact ⟨passed, earlier, held⟩
        · rw [List.mem_singleton.1 last] at held
          exact absurd held now
  · rintro ⟨⟨some, isParent⟩, each⟩ before way
    cases way with
    | start none => exact absurd isParent (none some)
    | load way loads =>
      rcases each _ loads with earlier | now
      · obtain ⟨passed, member, held⟩ := earlier _ way
        exact ⟨passed, List.mem_append_left _ member, held⟩
      · exact ⟨_, List.mem_append_right _ List.mem_cons_self, now⟩

section Rising

/- Parents come before their children in some numbering of the groups. -/
variable {rank : AssetKey → Nat} (rises : ∀ {a b}, g.CanLoad a b → rank a < rank b)

include rises

/-- Where every group has what its parents offer, it has what is loaded on every way. -/
theorem mem_iff_loadedOnEveryWay
    (offered : ∀ n, x ∈ available.setAt n ↔ g.OfferedTo available n x) :
    x ∈ available.setAt n ↔ g.LoadedOnEveryWay n x := by
  induction number : rank n using Nat.strongRecOn generalizing n with
  | ind number ih =>
    subst number
    rw [offered, OfferedTo, loadedOnEveryWay_iff]
    refine and_congr_right fun _ => forall₂_congr fun parent loads => ?_
    rw [ih (rank parent) (rises loads) rfl]

theorem exists_way (n : AssetKey) : ∃ before, g.Way before n := by
  induction number : rank n using Nat.strongRecOn generalizing n with
  | ind number ih =>
    subst number
    by_cases loaded : ∃ parent, g.CanLoad parent n
    · obtain ⟨parent, loads⟩ := loaded
      obtain ⟨before, way⟩ := ih (rank parent) (rises loads) parent rfl
      exact ⟨before ++ [parent], way.load loads⟩
    · exact ⟨[], .start fun parent loads => loaded ⟨parent, loads⟩⟩

end Rising

/-- Exactly the groups of the order get an availability. -/
theorem get?_availabilityAlong (success : g.availabilityAlong order = .ok available)
    (n : AssetKey) : (∃ assets, available.get? n = some assets) ↔ n ∈ order := by
  have complete : ∀ n, (∃ assets, available.get? n = some assets) ∨ n ∈ ([] : List AssetKey) ↔
      n ∈ order := by
    refine foldlM_ok_induction (fun rest available =>
      ∀ n, (∃ assets, available.get? n = some assets) ∨ n ∈ rest ↔ n ∈ order) ?_ ?_ success
    · intro m rest before after invariant step n
      obtain ⟨assets, rfl, _, _⟩ := extendAvailability_ok step
      rw [← invariant n, KeyMap.get?_insert, List.mem_cons]
      by_cases now : m = n
      · simp [now]
      · simp [now, Ne.symm now]
    · simp
  simpa using complete n

/-- Two availabilities of the same groups in which every group has what its parents offer. -/
theorem eq_of_offered {other : KeyMap AssetKey (KeySet AssetKey)} {rank : AssetKey → Nat}
    (rises : ∀ {a b}, g.CanLoad a b → rank a < rank b)
    (groups : ∀ n,
      (∃ assets, available.get? n = some assets) ↔ ∃ assets, other.get? n = some assets)
    (offered : ∀ n x, x ∈ available.setAt n ↔ g.OfferedTo available n x)
    (otherOffered : ∀ n x, x ∈ other.setAt n ↔ g.OfferedTo other n x) : available = other := by
  apply KeyMap.eq_of_setAt groups
  intro n x
  rw [mem_iff_loadedOnEveryWay rises fun n => offered n x,
    mem_iff_loadedOnEveryWay rises fun n => otherOffered n x]

/-- Availability of groups none of which can come to load itself. It is the same however it is
computed: along any order of the groups that has parents first, and circle by circle, whichever way
the circles are listed and whichever order of them has parents first. Every group has exactly the
assets that each way to it passes, and nothing if it has no parent. -/
theorem availability_is_meet_over_ways (g : GroupGraph) (wellFormed : g.WellFormed)
    (acyclic : ∀ n, ¬TransGen g.CanLoad n n) :
    ∃ available, g.availability.result = .ok available ∧
      (∀ order : List AssetKey, order.Perm g.groups → g.ParentsFirst order →
        g.availabilityAlong order = .ok available) ∧
      g.availabilityByCircles = .ok available ∧
      (∀ circles order, g.Components circles → order.Perm (List.range circles.length) →
        (g.circleGraph circles).ParentsFirst order →
          (g.fillCircles circles order).available = available) ∧
      (∀ n, (∃ assets, available.get? n = some assets) ↔ n ∈ g.groups) ∧
      ∀ n ∈ g.groups, (∃ before, g.Way before n) ∧
        (∀ x, x ∈ available.setAt n ↔
          ∀ before, g.Way before n → ∃ passed ∈ before, x ∈ g.loadedBy passed) ∧
        ((∀ parent, ¬g.CanLoad parent n) → available.get? n = some ∅) := by
  obtain ⟨first, found⟩ := wellFormed.exists_order acyclic
  have rises {a b : AssetKey} (loads : g.CanLoad a b) : first.idxOf a < first.idxOf b :=
    wellFormed.idxOf_lt (perm_of_order? found) (parentsFirst_of_order? found) loads
  obtain ⟨_, _, _, byCircles⟩ := wellFormed.availabilityByCircles_eq
  generalize (g.fillCircles _ _).available = available at byCircles
  have groups := wellFormed.get?_availabilityByCircles byCircles
  have offered (n x : AssetKey) : x ∈ available.setAt n ↔ g.OfferedTo available n x :=
    (wellFormed.mem_availabilityByCircles byCircles n x).trans (offeredToCircle_iff acyclic)
  have along (order : List AssetKey) (listing : order.Perm g.groups)
      (ordered : g.ParentsFirst order) : g.availabilityAlong order = .ok available := by
    obtain ⟨other, success⟩ := exists_availabilityAlong ordered
    have sameGroups (n : AssetKey) : (∃ assets, other.get? n = some assets) ↔
        ∃ assets, available.get? n = some assets := by
      rw [get?_availabilityAlong success, listing.mem_iff, groups]
    rw [success, eq_of_offered rises sameGroups
      (wellFormed.mem_availabilityAlong listing success) offered]
  refine ⟨available, ?_, along, byCircles, ?_, groups, ?_⟩
  · unfold availability
    rw [found]
    have computed := along first (perm_of_order? found) (parentsFirst_of_order? found)
    exact Report.result_bind_eq_ok.2 ⟨available, computed, rfl⟩
  · intro circles order components listing ordered
    exact wellFormed.available_fillCircles byCircles components listing ordered
  · intro n listed
    have ways (x : AssetKey) := mem_iff_loadedOnEveryWay rises (n := n) fun n => offered n x
    refine ⟨exists_way rises n, ways, ?_⟩
    intro none
    obtain ⟨assets, isEntry⟩ := (groups n).2 listed
    rw [isEntry, Option.some_inj]
    apply KeySet.ext
    intro x
    refine iff_of_false (fun member => ?_) (KeySet.not_mem_empty x)
    obtain ⟨⟨parent, loads⟩, _⟩ :=
      (offered n x).1 (KeyMap.mem_setAt_iff.2 ⟨assets, isEntry, member⟩)
    exact none parent loads

/-- An entry `0` loads the groups `1` and `2`, and each of these loads `3`. Both load the asset `11`
and one more. -/
def twoWays : GroupGraph where
  groups := [0, 1, 2, 3]
  parents := .ofList [(0, ∅), (1, .ofList [0]), (2, .ofList [0]), (3, .ofList [1, 2])]
  loaded := .ofList [(0, .ofList [10]), (1, .ofList [11, 12]), (2, .ofList [11, 13]),
    (3, .ofList [14])]

theorem wellFormed_twoWays : twoWays.WellFormed := by
  refine ⟨by decide, ?_⟩
  intro parent child loads
  have listed : ∀ entry ∈ twoWays.parents.entries, ∀ parent ∈ entry.2.toList,
      parent ∈ twoWays.groups ∧ entry.1 ∈ twoWays.groups := by decide
  obtain ⟨parents, isEntry, member⟩ := KeyMap.mem_setAt_iff.1 loads
  exact listed (child, parents) (KeyMap.get?_eq_some_iff.1 isEntry) parent member

/-- Each way to `3` passes the assets `10` and `11`, and only one of them passes `12`. -/
theorem twoWays_meet : twoWays.WellFormed ∧ (∀ n, ¬TransGen twoWays.CanLoad n n) ∧
    ∃ available, twoWays.availabilityByCircles = .ok available ∧
      available.setAt 3 = .ofList [10, 11] ∧
      (∀ before, twoWays.Way before 3 → ∃ passed ∈ before, 11 ∈ twoWays.loadedBy passed) ∧
      ∃ before, twoWays.Way before 3 ∧ ∀ passed ∈ before, 12 ∉ twoWays.loadedBy passed := by
  have acyclic : ∀ n, ¬TransGen twoWays.CanLoad n n :=
    wellFormed_twoWays.acyclic_of_order? (show twoWays.order? = some [0, 1, 2, 3] from rfl)
  obtain ⟨available, _, _, byCircles, _, _, each⟩ :=
    availability_is_meet_over_ways twoWays wellFormed_twoWays acyclic
  have computed : available.setAt 3 = .ofList [10, 11] := by
    cases byCircles.symm.trans (show twoWays.availabilityByCircles = .ok (.ofList
      [(0, ∅), (1, .ofList [10]), (2, .ofList [10]), (3, .ofList [10, 11])]) from rfl)
    rfl
  obtain ⟨_, ways, _⟩ := each 3 (by decide)
  refine ⟨wellFormed_twoWays, acyclic, available, byCircles, computed, ?_, ?_⟩
  · exact (ways 11).1 (by rw [computed]; decide)
  · have missing : 12 ∉ available.setAt 3 := by rw [computed]; decide
    rw [ways] at missing
    push Not at missing
    exact missing

end GroupGraph

end CodeSplit
