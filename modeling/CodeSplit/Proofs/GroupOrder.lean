import CodeSplit.Plan.Availability
import CodeSplit.Proofs.Exploration

/-!
Orders of a group graph. The groups can be put into an order that has every parent before its
children exactly if no group can come to load itself.
-/
namespace CodeSplit.GroupGraph

open Relation (ReflTransGen TransGen)

/-- The first group can load the second. -/
def CanLoad (g : GroupGraph) (parent child : AssetKey) : Prop := parent ∈ g.parentsOf child

/-- Groups are listed once, and only listed groups load each other. -/
structure WellFormed (g : GroupGraph) : Prop where
  distinct : g.groups.Nodup
  inside : ∀ {parent child}, g.CanLoad parent child → parent ∈ g.groups ∧ child ∈ g.groups

variable {g : GroupGraph}

theorem ready_iff {taken : List AssetKey} {n : AssetKey} :
    ((g.parentsOf n).toList.all fun p => decide (p ∈ taken)) = true ↔
      ∀ p, g.CanLoad p n → p ∈ taken := by
  simp only [List.all_eq_true, decide_eq_true_eq, CanLoad, KeySet.mem_def]

/-- Taking a group moves it from the rest to what is taken. -/
theorem perm_take {taken rest : List AssetKey} {n : AssetKey} (member : n ∈ rest) :
    ((n :: taken).reverse ++ rest.erase n).Perm (taken.reverse ++ rest) := by
  rw [List.reverse_cons, List.append_assoc]
  exact (List.perm_cons_erase member).symm.append_left taken.reverse

theorem perm_of_orderFrom? {fuel : Nat} {taken rest order : List AssetKey}
    (found : g.orderFrom? fuel taken rest = some order) : order.Perm (taken.reverse ++ rest) := by
  fun_induction orderFrom? g fuel taken rest with
  | case1 =>
    cases found
    simp
  | case2 => cases found
  | case3 fuel taken rest _ n chosen ih =>
    exact (ih found).trans (perm_take (List.mem_of_find?_eq_some chosen))
  | case4 => cases found

theorem perm_of_order? {order : List AssetKey} (found : g.order? = some order) :
    order.Perm g.groups := by
  simpa using perm_of_orderFrom? found

/-- Every element of a list has its parents before it. -/
def ParentsFirst (g : GroupGraph) (order : List AssetKey) : Prop :=
  ∀ earlier n later, order = earlier ++ n :: later → ∀ p, g.CanLoad p n → p ∈ earlier

theorem ParentsFirst.snoc {order : List AssetKey} {n : AssetKey} (ordered : g.ParentsFirst order)
    (ready : ∀ p, g.CanLoad p n → p ∈ order) : g.ParentsFirst (order ++ [n]) := by
  intro earlier m later split p loads
  rcases List.eq_nil_or_concat later with rfl | ⟨later, last, rfl⟩
  · obtain ⟨front, back⟩ := List.append_inj' split rfl
    cases back
    rw [← front]
    exact ready p loads
  · have regrouped : order ++ [n] = (earlier ++ m :: later) ++ [last] := by simpa using split
    obtain ⟨front, _⟩ := List.append_inj' regrouped rfl
    exact ordered earlier m later front p loads

theorem parentsFirst_of_orderFrom? {fuel : Nat} {taken rest order : List AssetKey}
    (found : g.orderFrom? fuel taken rest = some order)
    (ordered : g.ParentsFirst taken.reverse) : g.ParentsFirst order := by
  fun_induction orderFrom? g fuel taken rest with
  | case1 =>
    cases found
    exact ordered
  | case2 => cases found
  | case3 fuel taken rest _ n chosen ih =>
    apply ih found
    rw [List.reverse_cons]
    apply ordered.snoc
    intro p loads
    have ready := List.find?_some chosen
    exact List.mem_reverse.2 (ready_iff.1 ready p loads)
  | case4 => cases found

theorem parentsFirst_of_order? {order : List AssetKey} (found : g.order? = some order) :
    g.ParentsFirst order := by
  apply parentsFirst_of_orderFrom? found
  intro earlier n later split
  simp at split

/-- Along an order that has parents first, whatever leads to a group stands before it. -/
theorem ParentsFirst.idxOf_lt {order : List AssetKey} (ordered : g.ParentsFirst order)
    {a b : AssetKey} (listed : b ∈ order) (loads : g.CanLoad a b) :
    order.idxOf a < order.idxOf b := by
  obtain ⟨earlier, later, split, fresh⟩ := List.eq_append_cons_of_mem listed
  have before : a ∈ earlier := ordered earlier b later split a loads
  rw [split, List.idxOf_append_of_mem before, List.idxOf_append_of_notMem fresh,
    List.idxOf_cons_self]
  exact List.idxOf_lt_length_of_mem before

theorem WellFormed.idxOf_lt (wellFormed : g.WellFormed) {order : List AssetKey}
    (listing : order.Perm g.groups) (ordered : g.ParentsFirst order) {a b : AssetKey}
    (loads : g.CanLoad a b) : order.idxOf a < order.idxOf b :=
  ordered.idxOf_lt (listing.mem_iff.2 (wellFormed.inside loads).2) loads

theorem WellFormed.acyclic_of_order? (wellFormed : g.WellFormed) {order : List AssetKey}
    (found : g.order? = some order) (n : AssetKey) : ¬TransGen g.CanLoad n n := by
  have step {a b : AssetKey} (loads : g.CanLoad a b) : order.idxOf a < order.idxOf b :=
    wellFormed.idxOf_lt (perm_of_order? found) (parentsFirst_of_order? found) loads
  have rises {a b : AssetKey} (chain : TransGen g.CanLoad a b) :
      order.idxOf a < order.idxOf b := by
    induction chain with
    | single loads => exact step loads
    | tail _ loads ih => exact ih.trans (step loads)
  intro circle
  exact Nat.lt_irrefl _ (rises circle)

/-- Where no group can come to load itself, some group that is left is always ready. -/
theorem orderFrom?_ne_none (acyclic : ∀ n, ¬TransGen g.CanLoad n n) {fuel : Nat}
    {taken rest : List AssetKey} (enough : rest.length ≤ fuel)
    (complete : ∀ a b, g.CanLoad a b → b ∈ rest → a ∈ taken ∨ a ∈ rest) :
    g.orderFrom? fuel taken rest ≠ none := by
  fun_induction orderFrom? g fuel taken rest with
  | case1 => simp
  | case2 => simp at enough
  | case3 fuel taken rest _ n chosen ih =>
    have member := List.mem_of_find?_eq_some chosen
    apply ih
    · have shorter := List.length_erase_of_mem member
      omega
    · intro a b loads listed
      rcases complete a b loads (List.mem_of_mem_erase listed) with h | h
      · exact .inl (List.mem_cons_of_mem _ h)
      · by_cases same : a = n
        · exact .inl (by simp [same])
        · exact .inr ((List.mem_erase_of_ne same).2 h)
  | case4 fuel taken rest some stuck =>
    obtain ⟨first, member, least⟩ := Walk.exists_first acyclic rest (by simpa using some)
    have ready : ∀ p, g.CanLoad p first → p ∈ taken := by
      intro p loads
      exact (complete p first loads member).resolve_right fun inRest => least p inRest loads
    have passed := List.find?_eq_none.1 stuck first member
    exact absurd (ready_iff.2 ready) passed

theorem WellFormed.exists_order (wellFormed : g.WellFormed)
    (acyclic : ∀ n, ¬TransGen g.CanLoad n n) : ∃ order, g.order? = some order := by
  apply Option.ne_none_iff_exists'.1
  apply orderFrom?_ne_none acyclic (Nat.le_refl _)
  intro a b loads _
  exact .inr (wellFormed.inside loads).1

end CodeSplit.GroupGraph
