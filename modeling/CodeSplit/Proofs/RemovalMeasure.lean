import CodeSplit.Proofs.PlanGrowth
import Mathlib.Algebra.BigOperators.Group.Finset.Sigma
import Mathlib.Algebra.Order.BigOperators.Group.Finset

/-!
A measure that every removal lessens, where no root leads back to itself through reuse.

A removal of a reused root replaces pairs that lead to it by pairs that lead to what it reuses. A
pair weighs more than all pairs together that can replace it: its weight is a power of a number
larger than that of the roots, the exponent being the number of roots that the reused root leads to.
A removal of a shared bundle leaves the pairs alone and takes consumers from the bundle. Consumers
that are joined in between count less than any pair.
-/
namespace CodeSplit

section Sums

variable {α : Type} {f g : α → Nat} {xs : List α}

theorem total_map_le (each : ∀ x ∈ xs, f x ≤ g x) : total (xs.map f) ≤ total (xs.map g) := by
  induction xs with
  | nil => simp
  | cons x xs ih =>
    have first := each x List.mem_cons_self
    have rest := ih fun y later => each y (List.mem_cons_of_mem _ later)
    simp only [List.map_cons, total_cons]
    omega

theorem total_map_le_mul {bound : Nat} (each : ∀ x ∈ xs, f x ≤ bound) :
    total (xs.map f) ≤ xs.length * bound := by
  induction xs with
  | nil => simp
  | cons x xs ih =>
    have first := each x List.mem_cons_self
    have rest := ih fun y later => each y (List.mem_cons_of_mem _ later)
    simp only [List.map_cons, total_cons, List.length_cons, Nat.succ_mul]
    omega

theorem total_map_set_lt {place : Nat} {x y : α} (found : xs[place]? = some x) (less : f y < f x) :
    total ((xs.set place y).map f) < total (xs.map f) := by
  induction xs generalizing place with
  | nil => cases found
  | cons z xs ih =>
    cases place with
    | zero =>
      cases found
      simp only [List.set_cons_zero, List.map_cons, total_cons]
      omega
    | succ place =>
      have rest := ih (by simpa using found)
      simp only [List.set_cons_succ, List.map_cons, total_cons]
      omega

/-- Fewer than `base` powers with smaller exponents do not add up to a power of `base`. -/
theorem sum_pow_lt {base top : Nat} {rank : AssetKey → Nat} {ns : Finset AssetKey}
    (few : ns.card < base) (lower : ∀ n ∈ ns, rank n < top) :
    ∑ n ∈ ns, base ^ rank n < base ^ top := by
  have positive : 0 < base := by omega
  rcases ns.eq_empty_or_nonempty with rfl | ⟨n, member⟩
  · simpa using Nat.pow_pos positive
  · obtain ⟨below, rfl⟩ : ∃ below, top = below + 1 := by
      have := lower n member
      exact ⟨top - 1, by omega⟩
    calc ∑ n ∈ ns, base ^ rank n ≤ ∑ _ ∈ ns, base ^ below := by
          refine Finset.sum_le_sum fun n member => Nat.pow_le_pow_right positive ?_
          exact Nat.le_of_lt_succ (lower n member)
      _ = ns.card * base ^ below := by rw [Finset.sum_const, Nat.nsmul_eq_mul]
      _ < base * base ^ below := Nat.mul_lt_mul_of_pos_right few (Nat.pow_pos positive)
      _ = base ^ (below + 1) := Nat.pow_succ'.symm

/-- If the pairs that lead to one element are replaced by pairs that lead to lighter ones, then all
pairs weigh less together. -/
theorem sum_replaced_lt (weight : AssetKey → Nat) {pairs next : Finset (AssetKey × AssetKey)}
    {takers nested : Finset AssetKey} {old : AssetKey} (some : takers.Nonempty)
    (there : ∀ t ∈ takers, (t, old) ∈ pairs)
    (replaced : ∀ e ∈ next, (e ∈ pairs ∧ ¬(e.1 ∈ takers ∧ e.2 = old)) ∨
      (e.1 ∈ takers ∧ e.2 ∈ nested))
    (lighter : ∑ n ∈ nested, weight n < weight old) :
    ∑ e ∈ next, weight e.2 < ∑ e ∈ pairs, weight e.2 := by
  have dropped : takers ×ˢ {old} ⊆ pairs := by
    rintro ⟨t, n⟩ member
    obtain ⟨taker, same⟩ := Finset.mem_product.1 member
    cases Finset.mem_singleton.1 same
    exact there t taker
  have covered : next ⊆ pairs \ takers ×ˢ {old} ∪ takers ×ˢ nested := by
    intro e member
    rw [Finset.mem_union, Finset.mem_sdiff, Finset.mem_product, Finset.mem_product,
      Finset.mem_singleton]
    exact replaced e member
  have kept := Finset.sum_sdiff (f := fun e => weight e.2) dropped
  have both : _ = ∑ e ∈ pairs \ takers ×ˢ {old}, weight e.2 + ∑ e ∈ takers ×ˢ nested, weight e.2 :=
    Finset.sum_union_inter
  have total := Finset.sum_le_sum_of_subset (f := fun e => weight e.2) covered
  have less : takers.card * ∑ n ∈ nested, weight n < takers.card * weight old :=
    Nat.mul_lt_mul_of_pos_left lighter (Finset.card_pos.2 some)
  simp only [Finset.sum_product, Finset.sum_singleton, Finset.sum_const, Nat.nsmul_eq_mul]
    at kept both
  omega

end Sums

namespace Plan

open Relation (ReflTransGen TransGen)

variable {start p q : Plan} {i : Index} {group : AssetKey}

section Reuse

/-- The number of other roots that a root leads to through reuse. -/
def reuseRank (p : Plan) (root : AssetKey) : Nat := (p.reusedClosure root).size

theorem reuseRank_lt (acyclic : ∀ a, ¬TransGen p.Reuses a a) {a b : AssetKey}
    (chain : TransGen p.Reuses a b) : p.reuseRank b < p.reuseRank a := by
  have fresh : b ∉ (p.reusedClosure b).toList := fun member => (mem_reusedClosure.1 member).1 rfl
  have distinct : (b :: (p.reusedClosure b).toList).Nodup :=
    List.nodup_cons.2 ⟨fresh, KeySet.nodup_toList _⟩
  have included : b :: (p.reusedClosure b).toList ⊆ (p.reusedClosure a).toList := by
    intro x member
    have path : TransGen p.Reuses a x := by
      rcases List.mem_cons.1 member with rfl | later
      · exact chain
      · exact chain.trans_left (mem_reusedClosure.1 later).2
    refine mem_reusedClosure.2 ⟨?_, path.to_reflTransGen⟩
    rintro rfl
    exact acyclic _ path
  exact distinct.length_le_of_subset included

/-- Both ends of a chain of pairs are listed. -/
theorem mem_reuseRoots_of_chain {a b : AssetKey} (chain : TransGen p.Reuses a b) :
    a ∈ p.reuseRoots ∧ b ∈ p.reuseRoots := by
  obtain ⟨_, first, _⟩ := TransGen.head'_iff.1 chain
  obtain ⟨_, _, last⟩ := TransGen.tail'_iff.1 chain
  exact ⟨(mem_reuseRoots first).1, (mem_reuseRoots last).2⟩

theorem reuseRank_le (p : Plan) (root : AssetKey) : p.reuseRank root ≤ p.reuseRoots.length := by
  refine (KeySet.nodup_toList _).length_le_of_subset ?_
  intro x member
  obtain ⟨other, chain⟩ := mem_reusedClosure.1 member
  rcases Relation.reflTransGen_iff_eq_or_transGen.1 chain with same | chain
  · exact absurd same other
  · exact (mem_reuseRoots_of_chain chain).2

/-- The reuse pairs of a plan, weighed by what their ends lead to in the plan at the start. -/
def reuseWeight (start p : Plan) : Nat :=
  ∑ pair ∈ p.reused.toList.toFinset, (start.reuseRoots.length + 1) ^ start.reuseRank pair.2

theorem reuseWeight_start_le (p : Plan) :
    reuseWeight p p ≤ p.reuseRoots.length * p.reuseRoots.length *
      (p.reuseRoots.length + 1) ^ p.reuseRoots.length := by
  have few : p.reused.toList.toFinset.card ≤ p.reuseRoots.length * p.reuseRoots.length := by
    rw [List.toFinset_card_of_nodup (KeySet.nodup_toList _), ← List.length_product]
    refine (KeySet.nodup_toList _).length_le_of_subset ?_
    rintro ⟨a, b⟩ pair
    exact List.mem_product.2 (mem_reuseRoots pair)
  calc reuseWeight p p
      ≤ ∑ _ ∈ p.reused.toList.toFinset, (p.reuseRoots.length + 1) ^ p.reuseRoots.length :=
        Finset.sum_le_sum fun pair _ =>
          Nat.pow_le_pow_right (Nat.succ_pos _) (p.reuseRank_le pair.2)
    _ = p.reused.toList.toFinset.card * (p.reuseRoots.length + 1) ^ p.reuseRoots.length := by
        rw [Finset.sum_const, Nat.nsmul_eq_mul]
    _ ≤ _ := Nat.mul_le_mul_right _ few

/-- Removing a reused root from some that reuse it makes the pairs lighter. -/
theorem Spreads.reuseWeight_lt (acyclic : ∀ a, ¬TransGen start.Reuses a a)
    (chains : ∀ a b, p.Reuses a b → TransGen start.Reuses a b) {reused : AssetKey}
    {reusers : List AssetKey} (spreads : Spreads p reused reusers q)
    (some : ∃ reuser, reuser ∈ reusers) (reuse : ∀ reuser ∈ reusers, p.Reuses reuser reused) :
    reuseWeight start q < reuseWeight start p := by
  have nestedRank : ∀ n ∈ (p.reusedBy reused).toFinset,
      start.reuseRank n < start.reuseRank reused := fun n nested =>
    reuseRank_lt acyclic (chains reused n (mem_reusedBy.1 (List.mem_toFinset.1 nested)))
  have fewNested : (p.reusedBy reused).toFinset.card < start.reuseRoots.length + 1 := by
    refine Nat.lt_succ_of_le ((Finset.card_le_card ?_).trans (List.toFinset_card_le _))
    intro n nested
    have pair := mem_reusedBy.1 (List.mem_toFinset.1 nested)
    exact List.mem_toFinset.2 (mem_reuseRoots_of_chain (chains reused n pair)).2
  have lighter := sum_pow_lt fewNested nestedRank
  have takers : reusers.toFinset.Nonempty := by
    obtain ⟨reuser, taker⟩ := some
    exact ⟨reuser, List.mem_toFinset.2 taker⟩
  refine sum_replaced_lt (fun n => (start.reuseRoots.length + 1) ^ start.reuseRank n) takers ?_ ?_
    lighter
  · intro t taker
    exact List.mem_toFinset.2 (reuse t (List.mem_toFinset.1 taker))
  · rintro ⟨a, b⟩ pair
    have pair := (spreads.reuses a b).1 (List.mem_toFinset.1 pair)
    simp only [List.mem_toFinset, mem_reusedBy]
    split at pair
    · rename_i taker
      rcases pair with ⟨old, other⟩ | ⟨nested, _⟩
      · exact .inl ⟨old, fun dropped => other dropped.2⟩
      · exact .inr ⟨taker, nested⟩
    · rename_i noTaker
      exact .inl ⟨pair, fun dropped => noTaker dropped.1⟩

end Reuse

section Consumers

/-- How many roots load a live shared bundle. -/
def loadCount (b : SharedBundle) : Nat := if b.alive then b.consumers.size else 0

/-- How often shared bundles are loaded. -/
def sharedLoad (p : Plan) : Nat := total (p.sharedBundles.map loadCount)

theorem sharedLoad_prune_le (pruned : (p.prune i).result = .ok q) :
    q.sharedLoad ≤ p.sharedLoad := by
  have same : q.sharedBundles = retired p.sharedBundles := (packs_prune pruned).sharedBundles
  unfold sharedLoad
  rw [same, retired, List.map_map]
  refine total_map_le fun b _ => ?_
  show loadCount (if isSpent b then { b with alive := false } else b) ≤ loadCount b
  split
  · simp [loadCount]
  · exact Nat.le_refl _

/-- Removing a shared bundle from those members of a group that load it. -/
theorem sharedLoad_removeShared_lt {place : Nat} {b : SharedBundle}
    (found : p.sharedBundles[place]? = some b) (can : p.CanDropShared group b) :
    (p.removeShared place (b.consumers.inter (p.members group))).sharedLoad < p.sharedLoad := by
  unfold sharedLoad
  rw [sharedBundles_removeShared found]
  refine total_map_set_lt found ?_
  simp only [loadCount, can.alive, if_true]
  obtain ⟨c, consumer, member⟩ := can.loaded
  have left : c ∉ (b.consumers.diff (b.consumers.inter (p.members group))).toList :=
    fun kept => (KeySet.mem_diff.1 kept).2 (KeySet.mem_inter.2 ⟨consumer, member⟩)
  have distinct : (c :: (b.consumers.diff (b.consumers.inter (p.members group))).toList).Nodup :=
    List.nodup_cons.2 ⟨left, KeySet.nodup_toList _⟩
  refine distinct.length_le_of_subset ?_
  intro m listed
  rcases List.mem_cons.1 listed with rfl | kept
  · exact consumer
  · exact (KeySet.mem_diff.1 kept).1

end Consumers

/-- What stays true of the plan at the start: reuse follows its chains, and the plan keeps to what
it allows. -/
structure Descends (start p : Plan) : Prop where
  chains : ∀ a b, p.Reuses a b → TransGen start.Reuses a b
  confined : Confined start p

theorem Descends.refl (p : Plan) : Descends p p := ⟨fun _ _ pair => .single pair, .refl p⟩

theorem Descends.sharedLoad_le (descends : Descends start p) :
    p.sharedLoad ≤ start.sharedBundles.length * start.possibleConsumers.length := by
  rw [← length_sharedBundles descends.confined.fixed]
  refine total_map_le_mul fun b listed => ?_
  unfold loadCount
  split
  · refine (KeySet.nodup_toList _).length_le_of_subset fun c consumer => ?_
    obtain ⟨place, found⟩ := List.mem_iff_getElem?.1 listed
    exact (descends.confined.ties (.load place c) ⟨b, found, consumer⟩).2
  · exact Nat.zero_le _

/-- Reuse pairs count more than all that can load a shared bundle. -/
def potential (start p : Plan) : Nat :=
  reuseWeight start p * (start.sharedBundles.length * start.possibleConsumers.length + 1) +
    p.sharedLoad

/-- A number of removals that no plan needs in which roots do not reuse each other in a circle. A
removal of a reused root replaces a pair by pairs that lead to roots with less to reuse, and between
two of them each removal takes a consumer from a shared bundle. -/
def removalBudget (p : Plan) : Nat :=
  let roots := p.reuseRoots.length
  let consumers := (KeySet.unions (p.sharedBundles.map SharedBundle.consumers)).size + roots
  (roots * roots * Nat.pow (roots + 1) roots + 1) * (p.sharedBundles.length * consumers + 1)

theorem potential_start_le (p : Plan) : potential p p ≤ p.removalBudget := by
  have weight := reuseWeight_start_le p
  have load := (Descends.refl p).sharedLoad_le
  have consumers : p.possibleConsumers.length =
      (KeySet.unions (p.sharedBundles.map SharedBundle.consumers)).size + p.reuseRoots.length :=
    List.length_append
  unfold potential removalBudget
  simp only [← consumers]
  rw [Nat.succ_mul]
  exact Nat.add_le_add (Nat.mul_le_mul_right _ weight) (Nat.le_succ_of_le load)

/-- After a removal, a pair leads where pairs led before, perhaps in several steps. -/
theorem Removes.chain (removes : p.Removes i group q) {a b : AssetKey} (pair : q.Reuses a b) :
    TransGen p.Reuses a b := by
  rcases removes.effects with enriches | ⟨reused, reusers, reuse, spreads, enriches⟩
  · unfold Reuses at pair
    rw [enriches.reused] at pair
    exact .single pair
  · unfold Reuses at pair
    rw [enriches.reused] at pair
    have pair := (spreads.reuses a b).1 pair
    split at pair
    · rename_i taker
      rcases pair with ⟨old, _⟩ | ⟨nested, _⟩
      · exact .single old
      · exact .tail (.single (reuse a taker)) nested
    · exact .single pair

theorem Removes.descends (removes : p.Removes i group q) (descends : Descends start p) :
    Descends start q := by
  constructor
  · intro a b pair
    exact (removes.chain pair).lift' id descends.chains
  · exact descends.confined.evolves (removes.evolves descends.confined)

/-- Every removal lessens the potential. -/
theorem Removes.potential_lt (removes : p.Removes i group q)
    (acyclic : ∀ a, ¬TransGen start.Reuses a a) (descends : Descends start p) :
    potential start q < potential start p := by
  have after := removes.descends descends
  rcases removes.cases with ⟨place, b, found, can, pruned⟩ | ⟨reused, reusers, can, same, pruned⟩
  · have enriches := (enriches_removeShared p place (b.consumers.inter (p.members group))).trans
      (enriches_prune pruned)
    have samePairs : q.reused = p.reused := enriches.reused
    have less := sharedLoad_removeShared_lt found can
    have pruning := sharedLoad_prune_le pruned
    unfold potential reuseWeight
    rw [samePairs]
    omega
  · have spreads := (spreads_removeReused p reused reusers).withGroups
    have reuse : ∀ reuser ∈ reusers.toList, p.Reuses reuser reused :=
      fun reuser taker => ((same reuser).1 taker).2
    have some : ∃ reuser, reuser ∈ reusers.toList := by
      obtain ⟨reuser, taker⟩ := can.reusedBySome
      exact ⟨reuser, (same reuser).2 taker⟩
    have lighter : reuseWeight start q < reuseWeight start p := by
      have less := spreads.reuseWeight_lt acyclic descends.chains some reuse
      unfold reuseWeight at less ⊢
      rw [(enriches_prune pruned).reused]
      exact less
    have load := after.sharedLoad_le
    have weight := Nat.mul_le_mul_right
      (start.sharedBundles.length * start.possibleConsumers.length + 1) lighter
    rw [Nat.succ_mul] at weight
    unfold potential
    omega

/-- The number of removals is bounded by the potential that they use up. -/
theorem RemovesIn.potential_le {count : Nat} (run : RemovesIn i count p q)
    (acyclic : ∀ a, ¬TransGen start.Reuses a a) (descends : Descends start p) :
    potential start q + count ≤ potential start p := by
  induction run with
  | none => exact Nat.le_refl _
  | some removes _ ih =>
    have less := removes.potential_lt acyclic descends
    have rest := ih (removes.descends descends)
    omega

end Plan

end CodeSplit
