import CodeSplit.Proofs.GroupOrder
import CodeSplit.Proofs.Keyed
import CodeSplit.Proofs.Outcomes

/-!
Availability computed along an order that has parents before children: a group gets exactly what all
of its parents offer, and each parent offers what was available to it and what it loads itself.
-/
namespace CodeSplit.GroupGraph

open Relation (ReflTransGen TransGen)

variable {g : GroupGraph}

/-- All groups that can load `n`, at least one, have the asset available or load it. -/
def OfferedTo (g : GroupGraph) (available : KeyMap AssetKey (KeySet AssetKey)) (n x : AssetKey) :
    Prop :=
  (∃ parent, g.CanLoad parent n) ∧
    ∀ parent, g.CanLoad parent n → x ∈ available.setAt parent ∨ x ∈ g.loadedBy parent

theorem offer_eq_ok_iff {available : KeyMap AssetKey (KeySet AssetKey)} {parent : AssetKey}
    {offered : KeySet AssetKey} :
    g.offer available parent = .ok offered ↔
      ∃ assets, available.get? parent = some assets ∧
        offered = assets.union (g.loadedBy parent) := by
  unfold offer
  cases available.get? parent with
  | none => simp
  | some assets => simp [eq_comm]

/-- Adding a group whose parents have been added: the new availability is what they all offer. -/
theorem extendAvailability_ok {available next : KeyMap AssetKey (KeySet AssetKey)} {n : AssetKey}
    (success : g.extendAvailability available n = .ok next) :
    ∃ assets, next = available.insert n assets ∧
      (∀ parent, g.CanLoad parent n → ∃ known, available.get? parent = some known) ∧
      ∀ x, x ∈ assets ↔ g.OfferedTo available n x := by
  unfold extendAvailability at success
  obtain ⟨offers, offered, success⟩ := bind_eq_ok_iff.1 success
  cases success
  refine ⟨_, rfl, ?_, ?_⟩
  · intro parent loads
    obtain ⟨_, _, given⟩ := exists_of_mem_mapM offered loads
    obtain ⟨known, found, _⟩ := offer_eq_ok_iff.1 given
    exact ⟨known, found⟩
  · intro x
    rw [KeySet.mem_intersection?_getD]
    constructor
    · rintro ⟨some, all⟩
      refine ⟨?_, ?_⟩
      · obtain ⟨s, member⟩ := List.exists_mem_of_ne_nil offers some
        obtain ⟨parent, loads, _⟩ := exists_of_mem_result offered member
        exact ⟨parent, loads⟩
      · intro parent loads
        obtain ⟨s, member, given⟩ := exists_of_mem_mapM offered loads
        obtain ⟨assets, found, rfl⟩ := offer_eq_ok_iff.1 given
        simpa [KeyMap.setAt, found] using all _ member
    · rintro ⟨⟨parent, loads⟩, all⟩
      refine ⟨?_, ?_⟩
      · obtain ⟨s, member, _⟩ := exists_of_mem_mapM offered loads
        exact List.ne_nil_of_mem member
      · intro s member
        obtain ⟨parent, loads, given⟩ := exists_of_mem_result offered member
        obtain ⟨assets, found, rfl⟩ := offer_eq_ok_iff.1 given
        simpa [KeyMap.setAt, found] using all parent loads

/-- While groups are added, those in `rest` are still to come; the others have what their parents
offer, and these have been added too. -/
structure Extending (g : GroupGraph) (order rest : List AssetKey)
    (available : KeyMap AssetKey (KeySet AssetKey)) : Prop where
  distinct : rest.Nodup
  added : ∀ n, (∃ assets, available.get? n = some assets) ↔ n ∈ order ∧ n ∉ rest
  known : ∀ n ∈ order, n ∉ rest → ∀ parent, g.CanLoad parent n →
    ∃ assets, available.get? parent = some assets
  offered : ∀ n ∈ order, n ∉ rest → ∀ x, x ∈ available.setAt n ↔ g.OfferedTo available n x

theorem Extending.step {order rest : List AssetKey} {n : AssetKey}
    {available next : KeyMap AssetKey (KeySet AssetKey)}
    (before : g.Extending order (n :: rest) available) (listed : n ∈ order)
    (success : g.extendAvailability available n = .ok next) : g.Extending order rest next := by
  obtain ⟨assets, rfl, known, offers⟩ := extendAvailability_ok success
  obtain ⟨fresh, distinct⟩ := List.nodup_cons.1 before.distinct
  have absent : ¬∃ assets, available.get? n = some assets := fun h =>
    ((before.added n).1 h).2 List.mem_cons_self
  -- what was known of a parent is not changed by the new entry
  have same {m : AssetKey} (entry : ∃ assets, available.get? m = some assets) :
      (available.insert n assets).get? m = available.get? m := by
    have other : n ≠ m := by
      rintro rfl
      exact absent entry
    simp [other]
  have sameOffer {m x : AssetKey}
      (parents : ∀ parent, g.CanLoad parent m → ∃ assets, available.get? parent = some assets) :
      g.OfferedTo (available.insert n assets) m x ↔ g.OfferedTo available m x := by
    unfold OfferedTo
    refine and_congr_right fun _ => forall₂_congr fun parent loads => ?_
    rw [KeyMap.setAt, KeyMap.setAt, same (parents parent loads)]
  have earlier {m : AssetKey} (later : m ∉ rest) (other : m ≠ n) : m ∉ n :: rest := by
    simp [later, other]
  refine ⟨distinct, ?_, ?_, ?_⟩
  · intro m
    by_cases now : m = n
    · subst now
      simp [listed, fresh]
    · have old := before.added m
      simp only [List.mem_cons, now, false_or] at old
      simpa [Ne.symm now] using old
  · intro m member later parent loads
    have entry : ∃ assets, available.get? parent = some assets := by
      by_cases now : m = n
      · subst now
        exact known parent loads
      · exact before.known m member (earlier later now) parent loads
    rwa [same entry]
  · intro m member later x
    by_cases now : m = n
    · subst now
      rw [sameOffer known, ← offers]
      simp [KeyMap.setAt]
    · have parents := before.known m member (earlier later now)
      rw [sameOffer parents, ← before.offered m member (earlier later now) x, KeyMap.setAt,
        KeyMap.setAt, same ((before.added m).2 ⟨member, earlier later now⟩)]

/-- Along an order of the groups every group gets exactly what is offered to it. -/
theorem WellFormed.mem_availabilityAlong (wellFormed : g.WellFormed) {order : List AssetKey}
    (listing : order.Perm g.groups) {available : KeyMap AssetKey (KeySet AssetKey)}
    (success : g.availabilityAlong order = .ok available) (n x : AssetKey) :
    x ∈ available.setAt n ↔ g.OfferedTo available n x := by
  have start : g.Extending order order ∅ := by
    refine ⟨listing.nodup_iff.2 wellFormed.distinct, ?_, ?_, ?_⟩
    · simp
    · intro m member later
      exact absurd member later
    · intro m member later
      exact absurd member later
  have complete : g.Extending order [] available ∧ ∀ m ∈ ([] : List AssetKey), m ∈ order := by
    refine foldlM_ok_induction
      (fun rest available => g.Extending order rest available ∧ ∀ m ∈ rest, m ∈ order)
      ?_ ⟨start, fun m member => member⟩ success
    intro m rest before after invariant taken
    obtain ⟨extending, listed⟩ := invariant
    exact ⟨extending.step (listed m List.mem_cons_self) taken,
      fun k member => listed k (List.mem_cons_of_mem _ member)⟩
  by_cases listed : n ∈ order
  · exact complete.1.offered n listed List.not_mem_nil x
  · have missing : available.get? n = none := by
      by_contra found
      obtain ⟨assets, entry⟩ := Option.ne_none_iff_exists'.1 found
      exact listed ((complete.1.added n).1 ⟨assets, entry⟩).1
    have unloadable : ¬g.OfferedTo available n x := by
      intro offered
      obtain ⟨parent, loads⟩ := offered.1
      exact listed (listing.mem_iff.2 (wellFormed.inside loads).2)
    simp [KeyMap.setAt, missing, unloadable]

/-- No parent is missing along an order that has parents first. -/
theorem exists_availabilityAlong {order : List AssetKey} (ordered : g.ParentsFirst order) :
    ∃ available, g.availabilityAlong order = .ok available := by
  have extend (earlier later : List AssetKey) (split : order = earlier ++ later)
      (available : KeyMap AssetKey (KeySet AssetKey))
      (entries : ∀ n ∈ earlier, ∃ assets, available.get? n = some assets) :
      ∃ final, later.foldlM g.extendAvailability available = .ok final := by
    induction later generalizing earlier available with
    | nil => exact ⟨available, rfl⟩
    | cons n later ih =>
      have known : ∀ parent ∈ (g.parentsOf n).toList,
          ∃ offered, g.offer available parent = .ok offered := by
        intro parent loads
        obtain ⟨assets, found⟩ := entries parent (ordered earlier n later split parent loads)
        exact ⟨_, offer_eq_ok_iff.2 ⟨assets, found, rfl⟩⟩
      obtain ⟨offers, offered⟩ := exists_mapM_ok known
      have added : g.extendAvailability available n =
          .ok (available.insert n ((KeySet.intersection? offers).getD ∅)) := by
        unfold extendAvailability
        exact bind_eq_ok_iff.2 ⟨offers, offered, rfl⟩
      obtain ⟨final, rest⟩ := ih (earlier ++ [n]) (by simp [split])
        (available.insert n ((KeySet.intersection? offers).getD ∅)) (by
          intro m member
          rw [KeyMap.get?_insert]
          split
          · exact ⟨_, rfl⟩
          · rename_i other
            rcases List.mem_append.1 member with h | h
            · exact entries m h
            · exact absurd (List.mem_singleton.1 h).symm other)
      exact ⟨final, by rw [List.foldlM_cons]; exact bind_eq_ok_iff.2 ⟨_, added, rest⟩⟩
  exact extend [] order rfl ∅ (fun n member => absurd member List.not_mem_nil)

end CodeSplit.GroupGraph
