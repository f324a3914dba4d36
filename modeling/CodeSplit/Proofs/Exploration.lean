import CodeSplit.Walk
import Mathlib.Data.Fintype.Card
import Mathlib.Data.List.Nodup
import Mathlib.Data.Set.Finite.List
import Mathlib.Logic.Relation

/-!
Depth-first exploration finds exactly what can be reached. The number of steps allotted to a walk is
justified by what can still be put on its stack: a step either takes a visited element off the stack
or spends the successors of a new one. Where no chain of steps leads back to its start, every list
has an element with no predecessor in it.
-/
namespace CodeSplit.Walk

open Relation (ReflTransGen TransGen)

variable {α : Type}

theorem exists_first {step : α → α → Prop} (acyclic : ∀ a, ¬TransGen step a a) (xs : List α)
    (some : xs ≠ []) : ∃ first ∈ xs, ∀ y ∈ xs, ¬step y first := by
  have : Finite {a // a ∈ xs} := List.finite_toSet xs
  let before (a b : {a // a ∈ xs}) : Prop := TransGen step a.1 b.1
  have : IsTrans _ before := ⟨fun _ _ _ left right => left.trans right⟩
  have : Std.Irrefl before := ⟨fun a => acyclic a.1⟩
  obtain ⟨x, member⟩ := List.exists_mem_of_ne_nil xs some
  obtain ⟨first, _, least⟩ :=
    (Finite.wellFounded_of_trans_of_irrefl before).has_min Set.univ ⟨⟨x, member⟩, trivial⟩
  exact ⟨first.1, first.2, fun y inside step => least ⟨y, inside⟩ trivial (.single step)⟩

/-- One step of a walk: `b` follows from `a`. -/
def Follows (next : α → List α) (a b : α) : Prop := b ∈ next a

/-- The successors of sources that have not been visited. -/
def pendingPushes [DecidableEq α] (next : α → List α) (sources visited : List α) : Nat :=
  total ((sources.filter fun x => decide (x ∉ visited)).map fun x => (next x).length)

/-- What is kept less often weighs no more. -/
theorem total_filter_le (weight : α → Nat) {keep keep' : α → Bool} {xs : List α}
    (fewer : ∀ x ∈ xs, keep x = true → keep' x = true) :
    total ((xs.filter keep).map weight) ≤ total ((xs.filter keep').map weight) := by
  induction xs with
  | nil => exact Nat.le_refl 0
  | cons x xs ih =>
    have rest := ih fun y member => fewer y (List.mem_cons_of_mem _ member)
    by_cases kept : keep x = true
    · have kept' : keep' x = true := fewer x List.mem_cons_self kept
      simp only [List.filter_cons_of_pos kept, List.filter_cons_of_pos kept', List.map_cons,
        total_cons]
      omega
    · rw [List.filter_cons_of_neg kept]
      by_cases kept' : keep' x = true
      · simp only [List.filter_cons_of_pos kept', List.map_cons, total_cons]
        omega
      · rw [List.filter_cons_of_neg kept']
        exact rest

variable [DecidableEq α] {next : α → List α}

/-- A visit spends the successors of what it visits. -/
theorem pendingPushes_cons {sources visited : List α} {x : α} (fresh : x ∉ visited)
    (covered : next x ≠ [] → x ∈ sources) :
    (next x).length + pendingPushes next sources (x :: visited) ≤
      pendingPushes next sources visited := by
  have fewer (zs : List α) : pendingPushes next zs (x :: visited) ≤
      pendingPushes next zs visited := by
    apply total_filter_le
    intro z _ kept
    simp only [decide_eq_true_eq, List.mem_cons, not_or] at kept ⊢
    exact kept.2
  by_cases source : x ∈ sources
  · clear covered
    induction sources with
    | nil => cases source
    | cons y ys ih =>
      have rest := fewer ys
      unfold pendingPushes at ih rest ⊢
      by_cases same : y = x
      · subst same
        rw [List.filter_cons_of_neg (by simp), List.filter_cons_of_pos (by simpa using fresh),
          List.map_cons, total_cons]
        omega
      · have smaller := ih ((List.mem_cons.1 source).resolve_left (Ne.symm same))
        by_cases seen : y ∈ visited
        · rw [List.filter_cons_of_neg (by simp [seen]), List.filter_cons_of_neg (by simp [seen])]
          exact smaller
        · rw [List.filter_cons_of_pos (by simp [same, seen]),
            List.filter_cons_of_pos (by simp [seen])]
          simp only [List.map_cons, total_cons]
          omega
  · have stuck : next x = [] := by
      by_contra some
      exact source (covered some)
    have rest := fewer sources
    rw [stuck, List.length_nil]
    omega

/-- A visit stays inside every set that has the stack, what was visited, and all successors. -/
theorem visit_subset (inside : α → Prop) (closed : ∀ a b, inside a → b ∈ next a → inside b) :
    ∀ (fuel : Nat) (stack visited : List α), (∀ x ∈ stack, inside x) →
      (∀ x ∈ visited, inside x) → ∀ x ∈ visit next fuel stack visited, inside x
  | 0, _, visited, _, known, x, member => known x (by simpa [visit] using member)
  | _ + 1, [], visited, _, known, x, member => known x (by simpa [visit] using member)
  | fuel + 1, y :: stack, visited, waiting, known, x, member => by
    unfold visit at member
    split at member
    · exact visit_subset inside closed fuel stack visited
        (fun z h => waiting z (List.mem_cons_of_mem _ h)) known x member
    · refine visit_subset inside closed fuel _ _ ?_ ?_ x member
      · intro z h
        rcases List.mem_append.1 h with h | h
        · exact closed y z (waiting y List.mem_cons_self) (List.mem_reverse.1 h)
        · exact waiting z (List.mem_cons_of_mem _ h)
      · intro z h
        rcases List.mem_cons.1 h with rfl | h
        · exact waiting z List.mem_cons_self
        · exact known z h

/-- With enough steps a visit ends with an empty stack: it has everything that was on the stack or
visited, and the successors of what it has. -/
theorem visit_closed {sources : List α} (covered : ∀ x, next x ≠ [] → x ∈ sources) :
    ∀ (fuel : Nat) (stack visited : List α),
      stack.length + pendingPushes next sources visited < fuel →
      (∀ x ∈ visited, ∀ y ∈ next x, y ∈ visited ∨ y ∈ stack) →
      (∀ x, x ∈ visited ∨ x ∈ stack → x ∈ visit next fuel stack visited) ∧
        ∀ x ∈ visit next fuel stack visited, ∀ y ∈ next x, y ∈ visit next fuel stack visited
  | 0, _, _, enough, _ => absurd enough (Nat.not_lt_zero _)
  | _ + 1, [], visited, _, known => by
    simp only [visit, List.mem_reverse, List.not_mem_nil, or_false] at known ⊢
    exact ⟨fun x h => h, known⟩
  | fuel + 1, y :: stack, visited, enough, known => by
    simp only [List.length_cons] at enough
    by_cases seen : y ∈ visited
    · have rest := visit_closed covered fuel stack visited (by omega) (by
        intro x member z follows
        rcases known x member z follows with h | h
        · exact .inl h
        · rcases List.mem_cons.1 h with rfl | h
          · exact .inl seen
          · exact .inr h)
      simp only [visit, if_pos seen]
      refine ⟨?_, rest.2⟩
      rintro x (h | h)
      · exact rest.1 x (.inl h)
      · rcases List.mem_cons.1 h with rfl | h
        · exact rest.1 x (.inl seen)
        · exact rest.1 x (.inr h)
    · have spent := pendingPushes_cons seen (covered y)
      have rest := visit_closed covered fuel ((next y).reverse ++ stack) (y :: visited)
        (by simp only [List.length_append, List.length_reverse]; omega) (by
          intro x member z follows
          rcases List.mem_cons.1 member with rfl | member
          · exact .inr (by simp [follows])
          · rcases known x member z follows with h | h
            · exact .inl (List.mem_cons_of_mem _ h)
            · rcases List.mem_cons.1 h with rfl | h
              · exact .inl List.mem_cons_self
              · exact .inr (by simp [h]))
      simp only [visit, if_neg seen]
      refine ⟨?_, rest.2⟩
      rintro x (h | h)
      · exact rest.1 x (.inl (List.mem_cons_of_mem _ h))
      · rcases List.mem_cons.1 h with rfl | h
        · exact rest.1 x (.inl List.mem_cons_self)
        · exact rest.1 x (.inr (by simp [h]))

theorem nodup_visit (fuel : Nat) (stack visited : List α) (distinct : visited.Nodup) :
    (visit next fuel stack visited).Nodup := by
  induction fuel generalizing stack visited with
  | zero => simpa [visit] using distinct
  | succ fuel ih =>
    cases stack with
    | nil => simpa [visit] using distinct
    | cons y stack =>
      unfold visit
      split
      · exact ih stack visited distinct
      · rename_i fresh
        exact ih _ _ (List.nodup_cons.2 ⟨fresh, distinct⟩)

theorem nodup_explore (next : α → List α) (sources start : List α) :
    (explore next sources start).Nodup :=
  nodup_visit _ _ _ List.nodup_nil

/-- An exploration finds exactly what follows from its start. -/
theorem mem_explore_iff {sources start : List α} (covered : ∀ x, next x ≠ [] → x ∈ sources)
    {x : α} :
    x ∈ explore next sources start ↔ ∃ s ∈ start, ReflTransGen (Follows next) s x := by
  constructor
  · intro member
    refine visit_subset (fun x => ∃ s ∈ start, ReflTransGen (Follows next) s x) ?_
      _ start.reverse [] ?_ ?_ x member
    · rintro a b ⟨s, started, path⟩ follows
      exact ⟨s, started, path.tail follows⟩
    · intro s member
      exact ⟨s, List.mem_reverse.1 member, .refl⟩
    · intro s member
      cases member
  · rintro ⟨s, started, path⟩
    have nothing : pendingPushes next sources [] =
        total (sources.map fun x => (next x).length) := by
      simp [pendingPushes]
    have complete := visit_closed covered
      (start.length + total (sources.map fun x => (next x).length) + 1) start.reverse []
      (by simp only [List.length_reverse, nothing]; omega)
      (fun x member => absurd member List.not_mem_nil)
    induction path with
    | refl => exact complete.1 s (.inr (List.mem_reverse.2 started))
    | tail _ follows ih => exact complete.2 _ ih _ follows

/-- Explorations from the same elements along the same steps find the same, in some order. -/
theorem perm_explore {next' : α → List α} {sources sources' start start' : List α}
    (covered : ∀ x, next x ≠ [] → x ∈ sources) (covered' : ∀ x, next' x ≠ [] → x ∈ sources')
    (starts : ∀ x, x ∈ start ↔ x ∈ start') (same : ∀ a b, b ∈ next a ↔ b ∈ next' a) :
    (explore next sources start).Perm (explore next' sources' start') := by
  have steps : Follows next = Follows next' := by
    funext a b
    exact propext (same a b)
  rw [List.perm_ext_iff_of_nodup (nodup_explore _ _ _) (nodup_explore _ _ _)]
  intro x
  rw [mem_explore_iff covered, mem_explore_iff covered', steps]
  simp only [starts]

end CodeSplit.Walk
