import CodeSplit.Proofs.RemovalSteps
import Mathlib.Data.Finset.Card
import Mathlib.Order.Interval.Finset.Nat

/-!
Limiting as a machine that goes from state to state. The steps allotted to it matter only to a run
that does not end by itself: one that does is never in the same state twice, so that it takes no
more steps than there are states.
-/
namespace CodeSplit

/-- Where limiting is: the groups of this round that it has not gone over, whether it has removed
anything in the round, and the plan. -/
structure LimitState where
  pending : List AssetKey
  changed : Bool
  plan : Plan

namespace LimitState

open Relation (ReflTransGen)

section Runs

variable (i : Index) (limit : Nat) (groups : List AssetKey)

/-- The state that comes next. There is none when limiting has ended. -/
def advance : LimitState → Except Fault (Option LimitState)
  | ⟨[], changed, p⟩ => .ok (if changed then some ⟨groups, false, p⟩ else none)
  | ⟨group :: pending, changed, p⟩ =>
    if p.requestCount group ≤ limit then .ok (some ⟨pending, changed, p⟩)
    else do
      match ← p.nextRemoval? i group with
      | none =>
        let _ ← i.idOf group
        return some ⟨pending, changed, p⟩
      | some removal =>
        let next ← (p.applyRemoval i group removal).result
        let pruned ← (next.prune i).result
        return some ⟨group :: pending, true, pruned⟩

/-- The plan that limiting ends with, if it does within a number of steps. -/
def run : Nat → LimitState → Except Fault Plan
  | 0, _ => .error (.misuse .endlessRemovals)
  | fuel + 1, s => do
    match ← s.advance i limit groups with
    | none => return s.plan
    | some t => run fuel t

/-- Limiting is such a run, in which removals are counted besides. -/
theorem fst_limitFrom_eq_run (fuel : Nat) (s : LimitState) (removed : Nat) :
    Prod.fst <$> (Plan.limitFrom i limit groups fuel s.pending s.changed removed s.plan).result =
      s.run i limit groups fuel := by
  induction fuel generalizing s removed with
  | zero => rfl
  | succ fuel ih =>
    obtain ⟨pending, changed, p⟩ := s
    cases pending with
    | nil =>
      cases changed with
      | false => rfl
      | true => exact ih ⟨groups, false, p⟩ removed
    | cons group pending =>
      by_cases within : p.requestCount group ≤ limit
      · simp only [Plan.limitFrom, run, advance, if_pos within]
        exact ih ⟨pending, changed, p⟩ removed
      · simp only [Plan.limitFrom, run, advance, if_neg within, Report.result_bind,
          Report.result_ofExcept, map_bind, bind_assoc]
        refine bind_congr fun next? => ?_
        cases next? with
        | none =>
          simp only [Report.result_bind, Report.result_ofExcept, map_bind, bind_assoc, pure_bind]
          exact bind_congr fun _ => ih ⟨pending, changed, p⟩ removed
        | some removal =>
          simp only [Report.result_bind, map_bind, bind_assoc, pure_bind]
          exact bind_congr fun _ => bind_congr fun pruned =>
            ih ⟨group :: pending, true, pruned⟩ (removed + 1)

theorem limitFrom_eq_error_iff (fuel : Nat) (s : LimitState) (removed : Nat) (fault : Fault) :
    (Plan.limitFrom i limit groups fuel s.pending s.changed removed s.plan).result =
      .error fault ↔ s.run i limit groups fuel = .error fault := by
  rw [← fst_limitFrom_eq_run i limit groups fuel s removed]
  cases (Plan.limitFrom i limit groups fuel s.pending s.changed removed s.plan).result with
  | error e => simp [Functor.map, Except.map]
  | ok out => simp [Functor.map, Except.map]

/-- The second state comes right after the first. -/
def Step (s t : LimitState) : Prop := s.advance i limit groups = .ok (some t)

/-- Limiting ends by itself within a number of steps, be it with a fault. -/
def Ends (n : Nat) (s : LimitState) : Prop :=
  s.run i limit groups n ≠ .error (.misuse .endlessRemovals)

/-- Limiting ends within a number of steps and no fewer. -/
structure Lasts (n : Nat) (s : LimitState) : Prop where
  ends : s.Ends i limit groups n
  least : ∀ m < n, ¬s.Ends i limit groups m

end Runs

variable {i : Index} {limit : Nat} {groups : List AssetKey} {s t : LimitState} {n : Nat}

theorem step_unique : Relator.RightUnique (Step i limit groups) := by
  intro s t u first second
  have same := first.symm.trans second
  cases same
  rfl

/-- What a step can do: begin a new round, pass over a group, or make a removal for it. -/
theorem Step.cases (step : s.Step i limit groups t) :
    (t.pending = groups ∧ t.plan = s.plan) ∨
      ∃ group rest, s.pending = group :: rest ∧
        ((t.pending = rest ∧ t.plan = s.plan) ∨
          (t.pending = s.pending ∧ s.plan.Removes i group t.plan)) := by
  unfold Step at step
  obtain ⟨pending, changed, p⟩ := s
  cases pending with
  | nil =>
    cases changed with
    | false => cases step
    | true =>
      cases step
      exact .inl ⟨rfl, rfl⟩
  | cons group rest =>
    refine .inr ⟨group, rest, rfl, ?_⟩
    simp only [advance] at step
    split at step
    · cases step
      exact .inl ⟨rfl, rfl⟩
    · obtain ⟨next?, found, step⟩ := bind_eq_ok_iff.1 step
      cases next? with
      | none =>
        obtain ⟨_, _, step⟩ := bind_eq_ok_iff.1 step
        cases step
        exact .inl ⟨rfl, rfl⟩
      | some removal =>
        obtain ⟨next, applied, step⟩ := bind_eq_ok_iff.1 step
        obtain ⟨pruned, prunes, step⟩ := bind_eq_ok_iff.1 step
        cases step
        exact .inr ⟨rfl, removal, next, found, applied, prunes⟩

theorem run_of_step (step : s.Step i limit groups t) (n : Nat) :
    s.run i limit groups (n + 1) = t.run i limit groups n := by
  unfold Step at step
  rw [run, step]
  rfl

/-- Where no state follows, one step is as good as more. -/
theorem run_of_last (last : ∀ t, ¬s.Step i limit groups t) (n : Nat) :
    s.run i limit groups (n + 1) = s.run i limit groups 1 := by
  unfold Step at last
  rw [run, run]
  cases next : s.advance i limit groups with
  | error e => rfl
  | ok next? =>
    cases next? with
    | none => rfl
    | some t => exact absurd next (last t)

theorem not_ends_zero (s : LimitState) : ¬s.Ends i limit groups 0 := fun ends => ends rfl

/-- With more steps a run ends as it does. -/
theorem Ends.run_eq_of_le (ends : s.Ends i limit groups n) {m : Nat} (more : n ≤ m) :
    s.run i limit groups m = s.run i limit groups n := by
  induction n generalizing s m with
  | zero => exact absurd ends (not_ends_zero s)
  | succ n ih =>
    obtain ⟨m, rfl⟩ : ∃ k, m = k + 1 := ⟨m - 1, by omega⟩
    by_cases goesOn : ∃ t, s.Step i limit groups t
    · obtain ⟨t, step⟩ := goesOn
      unfold Ends at ends
      rw [run_of_step step] at ends ⊢
      rw [run_of_step step]
      exact ih ends (by omega)
    · rw [not_exists] at goesOn
      rw [run_of_last goesOn, run_of_last goesOn n]

theorem Ends.exists_lasts (ends : s.Ends i limit groups n) : ∃ m ≤ n, s.Lasts i limit groups m := by
  classical
  have some : ∃ m, s.Ends i limit groups m := ⟨n, ends⟩
  exact ⟨Nat.find some, Nat.find_min' some ends, Nat.find_spec some, fun m => Nat.find_min some⟩

theorem Lasts.unique {m : Nat} (first : s.Lasts i limit groups m)
    (second : s.Lasts i limit groups n) : m = n := by
  refine Nat.le_antisymm (Nat.le_of_not_lt ?_) (Nat.le_of_not_lt ?_)
  · exact fun less => first.least n less second.ends
  · exact fun less => second.least m less first.ends

/-- A run that takes more than one step goes on to a state from which it takes one step less. -/
theorem Lasts.step (lasts : s.Lasts i limit groups (n + 1)) (positive : 0 < n) :
    ∃ t, s.Step i limit groups t ∧ t.Lasts i limit groups n := by
  have ends : s.run i limit groups (n + 1) ≠ .error (.misuse .endlessRemovals) := lasts.ends
  have goesOn : ∃ t, s.Step i limit groups t := by
    by_contra last
    rw [not_exists] at last
    rw [run_of_last last] at ends
    exact lasts.least 1 (by omega) ends
  obtain ⟨t, step⟩ := goesOn
  rw [run_of_step step] at ends
  refine ⟨t, step, ends, ?_⟩
  intro m less sooner
  refine lasts.least (m + 1) (by omega) ?_
  unfold Ends
  rw [run_of_step step]
  exact sooner

/-- A run comes through states from which it takes any smaller number of steps. -/
theorem Lasts.exists_later (lasts : s.Lasts i limit groups n) {m : Nat} (positive : 0 < m)
    (fewer : m ≤ n) : ∃ t, ReflTransGen (Step i limit groups) s t ∧ t.Lasts i limit groups m := by
  induction n generalizing s with
  | zero => omega
  | succ n ih =>
    rcases Nat.lt_or_eq_of_le fewer with less | rfl
    · obtain ⟨t, step, rest⟩ := lasts.step (by omega)
      obtain ⟨u, path, found⟩ := ih rest (by omega)
      exact ⟨u, .head step path, found⟩
    · exact ⟨s, .refl, lasts⟩

/-- If the states on the way can be told apart by something that has only so many values, then a
run that ends takes no more steps than that. -/
theorem Lasts.le_card {β : Type} (lasts : s.Lasts i limit groups n) (profile : LimitState → β)
    {profiles : Finset β}
    (inside : ∀ t, ReflTransGen (Step i limit groups) s t → profile t ∈ profiles)
    (apart : ∀ t u, ReflTransGen (Step i limit groups) s t →
      ReflTransGen (Step i limit groups) s u → profile t = profile u → t = u) :
    n ≤ profiles.card := by
  -- for each number of steps, a state on the way from which the run takes that many
  have states : ∀ m, ∃ t, m ∈ Finset.Icc 1 n →
      ReflTransGen (Step i limit groups) s t ∧ t.Lasts i limit groups m := by
    intro m
    by_cases counted : m ∈ Finset.Icc 1 n
    · obtain ⟨positive, fewer⟩ := Finset.mem_Icc.1 counted
      obtain ⟨t, found⟩ := lasts.exists_later positive fewer
      exact ⟨t, fun _ => found⟩
    · exact ⟨s, fun other => absurd other counted⟩
  choose state found using states
  have few := Finset.card_le_card_of_injOn (s := Finset.Icc 1 n) (fun m => profile (state m))
    (fun m counted => inside _ (found m counted).1) ?_
  · simpa using few
  · intro m counted k other same
    obtain ⟨path, left⟩ := found m counted
    obtain ⟨otherPath, right⟩ := found k other
    have sameState := apart _ _ path otherPath same
    rw [sameState] at left
    exact left.unique right

end LimitState

end CodeSplit
