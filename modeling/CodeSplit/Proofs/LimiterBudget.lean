import CodeSplit.Proofs.LimitOutcome
import CodeSplit.Proofs.LimiterRuns
import CodeSplit.Proofs.PlanGrowth
import Mathlib.Data.Finset.Powerset
import Mathlib.Data.Finset.Prod
import Mathlib.Data.Fintype.Basic
import Mathlib.Tactic.Ring

/-!
The steps allotted to limiting are all that it can need. What a plan has for good is known from how
much it is, since along a run it only becomes more; so a state of limiting is known from that
number, the ties of the plan, and where the round is. There are no more of these than the budget has
steps, and a run that uses them all never ends, whatever the number of steps.
-/
namespace CodeSplit

theorem total_eq_sum (ns : List Nat) : total ns = ns.sum := by
  induction ns with
  | nil => rfl
  | cons n ns ih => rw [List.sum_cons, ← ih, total_cons]

namespace Plan

/-- All that the plan at the start allows limiting to add for good. -/
def possibleMarks (start : Plan) : List Mark :=
  start.possibleHolders.flatMap (fun root => .holder root ::
    start.possibleTypes.flatMap fun fileType => .bucket root fileType ::
      start.possibleContents.map (.asset root fileType)) ++
  start.edges.flatMap (fun e => .edge e ::
    start.reuseRoots.map fun root => .edge { e with source := root }) ++
  start.manualBundles.entries.flatMap (fun entry =>
    (entry.2.consumers.toList ++ start.reuseRoots).map (.manual entry.1)) ++
  (List.range start.sharedBundles.length).map .dissolved

/-- All that it allows to come and go. -/
def possibleTies (start : Plan) : List Tie :=
  start.reuseRoots.flatMap (fun root => start.reuseRoots.map (.reuse root)) ++
  (List.range start.sharedBundles.length).flatMap fun place =>
    start.possibleConsumers.map (.load place)

variable {start p q : Plan}

theorem mem_possibleMarks {m : Mark} (possible : start.CanHave m) : m ∈ start.possibleMarks := by
  simp only [possibleMarks, List.mem_append, List.mem_flatMap, List.mem_cons, List.mem_map,
    List.mem_range]
  cases m with
  | holder root => exact .inl (.inl (.inl ⟨root, possible, .inl rfl⟩))
  | bucket root fileType =>
    exact .inl (.inl (.inl ⟨root, possible.1, .inr ⟨fileType, possible.2, .inl rfl⟩⟩))
  | asset root fileType x =>
    obtain ⟨holder, type, content⟩ := possible
    exact .inl (.inl (.inl ⟨root, holder, .inr ⟨fileType, type, .inr ⟨x, content, rfl⟩⟩⟩))
  | edge e =>
    rcases possible with old | ⟨old, listed, root, reusing, rfl⟩
    · exact .inl (.inl (.inr ⟨e, old, .inl rfl⟩))
    · exact .inl (.inl (.inr ⟨old, listed, .inr ⟨root, reusing, rfl⟩⟩))
  | manual key consumer =>
    obtain ⟨b, found, member⟩ := possible
    exact .inl (.inr ⟨(key, b), KeyMap.get?_eq_some_iff.1 found, consumer, member, rfl⟩)
  | dissolved place => exact .inr ⟨place, possible, rfl⟩

theorem mem_possibleTies {t : Tie} (possible : start.CanTie t) : t ∈ start.possibleTies := by
  simp only [possibleTies, List.mem_append, List.mem_flatMap, List.mem_map, List.mem_range]
  cases t with
  | reuse a b => exact .inl ⟨a, possible.1, b, possible.2, rfl⟩
  | load place c => exact .inr ⟨place, possible.1, c, possible.2, rfl⟩

theorem length_possibleMarks (start : Plan) : start.possibleMarks.length = start.gainBudget := by
  simp only [possibleMarks, gainBudget, List.length_append, List.length_flatMap, List.length_cons,
    List.length_map, List.map_const', List.sum_replicate_nat, List.length_range,
    total_eq_sum, KeyMap.values, List.map_map, KeySet.size]
  rfl

theorem length_possibleTies (start : Plan) :
    start.possibleTies.length = start.reuseRoots.length * start.reuseRoots.length +
      start.sharedBundles.length * start.possibleConsumers.length := by
  simp only [possibleTies, List.length_append, List.length_flatMap, List.length_map,
    List.map_const', List.sum_replicate_nat, List.length_range]

section Counts

open Classical in
/-- How much of all that limiting can add for good the plan has. -/
noncomputable def gained (start p : Plan) : Nat := (start.possibleMarks.toFinset.filter p.Has).card

open Classical in
/-- Which of the possible ties the plan has. -/
noncomputable def heldTies (start p : Plan) : Finset Tie :=
  start.possibleTies.toFinset.filter p.Tied

theorem gained_le (start p : Plan) : gained start p ≤ start.gainBudget := by
  classical
  calc gained start p ≤ start.possibleMarks.toFinset.card := Finset.card_filter_le _ _
    _ ≤ start.possibleMarks.length := List.toFinset_card_le _
    _ = start.gainBudget := length_possibleMarks start

/-- A later plan that has gained nothing has the same marks. -/
theorem Evolves.has_iff (evolves : Evolves start p q) (confined : Confined start q)
    (same : gained start p = gained start q) (m : Mark) : p.Has m ↔ q.Has m := by
  classical
  have included : start.possibleMarks.toFinset.filter p.Has ⊆
      start.possibleMarks.toFinset.filter q.Has :=
    Finset.monotone_filter_right _ fun m _ => evolves.keeps m
  have equal := Finset.eq_of_subset_of_card_le included (Nat.le_of_eq same.symm)
  constructor
  · exact evolves.keeps m
  · intro has
    have listed : m ∈ start.possibleMarks.toFinset.filter q.Has :=
      Finset.mem_filter.2 ⟨List.mem_toFinset.2 (mem_possibleMarks (confined.marks m has)), has⟩
    rw [← equal] at listed
    exact (Finset.mem_filter.1 listed).2

theorem Evolves.edges_eq (evolves : Evolves start p q) (marks : ∀ m, p.Has m ↔ q.Has m) :
    p.edges = q.edges := by
  obtain ⟨new, added, fresh⟩ := evolves.edges
  have none : new = [] := by
    refine List.eq_nil_iff_forall_not_mem.2 fun e listed => fresh e listed ?_
    refine (marks (.edge e)).2 ?_
    show e ∈ q.edges
    rw [added]
    exact List.mem_append_right _ listed
  rw [added, none, List.append_nil]

theorem mem_heldTies (confined : Confined start p) {t : Tie} : t ∈ heldTies start p ↔ p.Tied t := by
  classical
  constructor
  · exact fun held => (Finset.mem_filter.1 held).2
  · intro tied
    exact Finset.mem_filter.2 ⟨List.mem_toFinset.2 (mem_possibleTies (confined.ties t tied)), tied⟩

theorem heldTies_subset (start p : Plan) : heldTies start p ⊆ start.possibleTies.toFinset := by
  classical
  exact Finset.filter_subset _ _

end Counts

section Groups

/-- The groups are those at the start, or those that follow from the edges. -/
def Grouped (start p : Plan) : Prop :=
  p.ownGroups = start.ownGroups ∨ p.ownGroups = p.settledGroups.1

theorem settledGroups_congr (roots : q.roots = p.roots) (edges : q.edges = p.edges) :
    q.settledGroups = p.settledGroups := by
  unfold settledGroups groupRounds initialGroups
  rw [roots, edges]

theorem Removes.grouped {i : Index} {group : AssetKey} (removes : p.Removes i group q)
    (grouped : Grouped start p) : Grouped start q := by
  rcases removes.effects with enriches | ⟨reused, reusers, _, _, enriches⟩
  · unfold Grouped
    rw [enriches.ownGroups, settledGroups_congr enriches.roots enriches.edges]
    exact grouped
  · right
    rw [enriches.ownGroups, settledGroups_congr enriches.roots enriches.edges]
    rfl

end Groups

end Plan

namespace LimitState

open Relation (ReflTransGen)
open Plan

variable {start : Plan} {i : Index} {limit : Nat} {groups : List AssetKey} {s t : LimitState}

/-- What stays true in a run: the plan keeps to what the start allows, its groups are known, and
groups that are pending are the last ones. -/
structure Reached (start : Plan) (groups : List AssetKey) (s : LimitState) : Prop where
  confined : Confined start s.plan
  grouped : Grouped start s.plan
  pending : s.pending <:+ groups

theorem Step.reached (step : s.Step i limit groups t) (reached : Reached start groups s) :
    Reached start groups t ∧ Evolves start s.plan t.plan := by
  obtain ⟨confined, grouped, pending⟩ := reached
  rcases step.cases with ⟨all, same⟩ | ⟨group, rest, waiting, ⟨left, same⟩ | ⟨left, removes⟩⟩
  · rw [same]
    refine ⟨⟨?_, ?_, ?_⟩, .refl start _⟩
    · rwa [same]
    · rwa [same]
    · rw [all]
  · rw [same]
    refine ⟨⟨?_, ?_, ?_⟩, .refl start _⟩
    · rwa [same]
    · rwa [same]
    · rw [waiting] at pending
      rw [left]
      exact (List.suffix_cons group rest).trans pending
  · have evolves := removes.evolves confined
    exact ⟨⟨confined.evolves evolves, removes.grouped grouped, left ▸ pending⟩, evolves⟩

theorem Reached.run (reached : Reached start groups s)
    (path : ReflTransGen (Step i limit groups) s t) :
    Reached start groups t ∧ Evolves start s.plan t.plan := by
  induction path with
  | refl => exact ⟨reached, .refl start s.plan⟩
  | tail _ step ih =>
    obtain ⟨later, evolves⟩ := ih
    obtain ⟨next, evolvesOn⟩ := step.reached later
    exact ⟨next, evolves.trans evolvesOn⟩

/-- What the states of a run can be told apart by. -/
noncomputable def profile (start : Plan) (s : LimitState) : Nat × Bool × Bool × Nat × Finset Tie :=
  (s.pending.length, s.changed, decide (s.plan.ownGroups = start.ownGroups),
    gained start s.plan, heldTies start s.plan)

def profiles (start : Plan) (groups : List AssetKey) :
    Finset (Nat × Bool × Bool × Nat × Finset Tie) :=
  Finset.range (groups.length + 1) ×ˢ Finset.univ ×ˢ Finset.univ ×ˢ
    Finset.range (start.gainBudget + 1) ×ˢ start.possibleTies.toFinset.powerset

theorem card_profiles_le (start : Plan) :
    (profiles start start.groupRoots).card ≤ start.stepBudget := by
  have ties : 2 ^ start.possibleTies.toFinset.card ≤ 2 ^ start.possibleTies.length :=
    Nat.pow_le_pow_right (by decide) (List.toFinset_card_le _)
  rw [length_possibleTies] at ties
  calc (profiles start start.groupRoots).card =
        (start.groupRoots.length + 1) * 4 * (start.gainBudget + 1) *
          2 ^ start.possibleTies.toFinset.card := by
        simp only [profiles, Finset.card_product, Finset.card_range, Finset.card_univ,
          Fintype.card_bool, Finset.card_powerset]
        ring
    _ ≤ start.stepBudget := Nat.mul_le_mul_left _ ties

theorem Reached.profile_mem (reached : Reached start groups s) :
    s.profile start ∈ profiles start groups := by
  have pending := reached.pending.length_le
  have gains := gained_le start s.plan
  have ties := heldTies_subset start s.plan
  simp only [profile, profiles, Finset.mem_product, Finset.mem_range, Finset.mem_univ,
    Finset.mem_powerset, true_and]
  exact ⟨by omega, by omega, ties⟩

/-- A later state of the run with the same profile is the same state. -/
theorem Reached.eq_of_profile (first : Reached start groups s) (second : Reached start groups t)
    (evolves : Evolves start s.plan t.plan) (same : s.profile start = t.profile start) : s = t := by
  simp only [profile, Prod.mk.injEq, decide_eq_decide] at same
  obtain ⟨count, changed, asAtStart, gains, held⟩ := same
  have pending : s.pending = t.pending :=
    (List.suffix_of_suffix_length_le first.pending second.pending count.le).eq_of_length count
  have marks := evolves.has_iff second.confined gains
  have edges := evolves.edges_eq marks
  have ties (tie : Tie) : s.plan.Tied tie ↔ t.plan.Tied tie := by
    rw [← mem_heldTies first.confined, held, mem_heldTies second.confined]
  have ownGroups : s.plan.ownGroups = t.plan.ownGroups := by
    by_cases atStart : s.plan.ownGroups = start.ownGroups
    · exact atStart.trans (asAtStart.1 atStart).symm
    · have settled := first.grouped.resolve_left atStart
      have settledLater := second.grouped.resolve_left fun other => atStart (asAtStart.2 other)
      rw [settled, settledLater,
        settledGroups_congr (roots_eq_of_core evolves.fixed) edges.symm]
  have plan := eq_of_marks evolves.fixed.symm ownGroups edges marks ties
  cases s
  cases t
  simp_all

/-- If limiting ends with any number of steps, it ends in the same way with those of the budget. -/
theorem Ends.run_stepBudget {p : Plan} {n : Nat}
    (ends : Ends i limit p.groupRoots n ⟨p.groupRoots, false, p⟩) :
    run i limit p.groupRoots p.stepBudget ⟨p.groupRoots, false, p⟩ =
      run i limit p.groupRoots n ⟨p.groupRoots, false, p⟩ := by
  obtain ⟨m, fewer, lasts⟩ := ends.exists_lasts
  have begins : Reached p p.groupRoots ⟨p.groupRoots, false, p⟩ :=
    ⟨.refl p, .inl rfl, List.suffix_refl _⟩
  have few : m ≤ (profiles p p.groupRoots).card := by
    refine lasts.le_card (profile p) (fun t path => (begins.run path).1.profile_mem) ?_
    -- a run does not branch, so that one of two states on it comes after the other
    intro t u toFirst toSecond same
    have first := (begins.run toFirst).1
    have second := (begins.run toSecond).1
    rcases toFirst.total_of_right_unique step_unique toSecond with path | path
    · exact first.eq_of_profile second (first.run path).2 same
    · exact (second.eq_of_profile first (second.run path).2 same.symm).symm
  rw [lasts.ends.run_eq_of_le (few.trans (card_profiles_le p)), lasts.ends.run_eq_of_le fewer]

end LimitState

namespace Plan

variable {p q : Plan} {i : Index} {config : Config}

theorem result_limitRequests (enabled : config.disableSharedBundles = false) :
    (p.limitRequests i config).result =
      LimitState.run i config.maxParallelRequests p.groupRoots p.stepBudget
        ⟨p.groupRoots, false, p⟩ := by
  have counted := LimitState.fst_limitFrom_eq_run i config.maxParallelRequests p.groupRoots
    p.stepBudget ⟨p.groupRoots, false, p⟩ 0
  rw [← counted]
  unfold limitRequests
  rw [enabled]
  show Report.result (limitFrom _ _ _ _ _ _ _ _ >>= _) = _
  rw [Report.result_bind]
  cases (limitFrom i config.maxParallelRequests p.groupRoots p.stepBudget p.groupRoots false 0
    p).result with
  | error e => rfl
  | ok out => rfl

/-- Limiting returns a plan exactly if, with some number of steps, it ends with that plan. -/
theorem limitRequests_eq_ok_iff (enabled : config.disableSharedBundles = false) :
    (p.limitRequests i config).result = .ok q ↔ p.LimitsTo i config.maxParallelRequests q := by
  refine ⟨limitsTo_of_limitRequests enabled, ?_⟩
  rintro ⟨fuel, removed, success⟩
  have run := LimitState.fst_limitFrom_eq_run i config.maxParallelRequests p.groupRoots fuel
    ⟨p.groupRoots, false, p⟩ 0
  rw [success] at run
  have ends : LimitState.Ends i config.maxParallelRequests p.groupRoots fuel
      ⟨p.groupRoots, false, p⟩ := by
    unfold LimitState.Ends
    rw [← run]
    exact fun other => by cases other
  rw [result_limitRequests enabled, ends.run_stepBudget, ← run]
  rfl

/-- Limiting is found to be endless exactly if no number of steps is enough for it. -/
theorem limitRequests_endless_iff :
    (p.limitRequests i config).result = .error (.misuse .endlessRemovals) ↔
      config.disableSharedBundles = false ∧ ¬p.LimitEnds i config.maxParallelRequests := by
  cases enabled : config.disableSharedBundles with
  | true =>
    have returns : (p.limitRequests i config).result = .ok p := by
      unfold limitRequests
      rw [enabled]
      rfl
    simp [returns]
  | false =>
    have ends (fuel : Nat) := LimitState.limitFrom_eq_error_iff i config.maxParallelRequests
      p.groupRoots fuel ⟨p.groupRoots, false, p⟩ 0 (.misuse .endlessRemovals)
    unfold LimitEnds
    simp only [result_limitRequests enabled, ne_eq, ends, true_and, not_exists, not_not]
    refine ⟨fun endless fuel => ?_, fun endless => endless p.stepBudget⟩
    by_contra sooner
    have ends : LimitState.Ends i config.maxParallelRequests p.groupRoots fuel
      ⟨p.groupRoots, false, p⟩ := sooner
    exact sooner (ends.run_stepBudget.symm.trans endless)

end Plan

end CodeSplit
