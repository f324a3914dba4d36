import CodeSplit.Bundler
import CodeSplit.Proofs.Outcomes

/-!
The passes that lead to the plan of a target. Roots are collected and walked from, consumers are
found, assets are moved into manual bundles, and the rest is placed; then requests are limited.
-/
namespace CodeSplit.Index

variable {i : Index} {config : Config} {entries : List Entry}

/-- The parts of the plan that the walks from the roots give. -/
theorem walkedPlan_ok {target : Target} {walked : Plan} {reach : Reach}
    (success : (i.walkedPlan target entries).result = .ok (walked, reach)) :
    walked = Plan.withGroups
        { target, roots := i.roots entries, edges := i.bundleEdges (i.roots entries)
          reused := i.reusedRoots (i.roots entries) } ∧
      reach = i.reach (i.roots entries) := by
  unfold walkedPlan at success
  obtain ⟨roots, collected, success⟩ := Report.result_bind_eq_ok.1 success
  obtain ⟨walks, found, success⟩ := Report.result_bind_eq_ok.1 success
  obtain ⟨plan, assigned, success⟩ := Report.result_bind_eq_ok.1 success
  unfold collectRoots at collected
  obtain ⟨_, _, collected⟩ := Report.result_bind_eq_ok.1 collected
  unfold walkRoots at found
  obtain ⟨_, _, found⟩ := Report.result_bind_eq_ok.1 found
  cases collected
  cases found
  cases assigned
  cases success
  exact ⟨rfl, rfl⟩

/-- The passes that lead to the plan of a target. -/
theorem planTarget_ok {p : Plan}
    (success : (i.planTarget config entries).result = .ok p) :
    ∃ entry, entries.head? = some entry ∧ ∃ walked reach packing extracted e placed,
      (i.walkedPlan entry.target entries).result = .ok (walked, reach) ∧
      (walked.consumers i reach).result = .ok packing ∧
      (walked.extractManualBundles i config packing).result = .ok (extracted, e) ∧
      (extracted.shareAssets i config e.claimed e.consumers).result = .ok placed ∧
      (placed.limitRequests i config).result = .ok p := by
  unfold planTarget at success
  cases first : entries.head? with
  | none =>
    rw [first] at success
    cases success
  | some entry =>
    rw [first] at success
    obtain ⟨_, same, success⟩ := Report.result_bind_eq_ok.1 success
    cases same
    obtain ⟨⟨walked, reach⟩, walks, success⟩ := Report.result_bind_eq_ok.1 success
    obtain ⟨packing, consumed, success⟩ := Report.result_bind_eq_ok.1 success
    obtain ⟨⟨extracted, e⟩, moved, success⟩ := Report.result_bind_eq_ok.1 success
    obtain ⟨placed, shared, limited⟩ := Report.result_bind_eq_ok.1 success
    exact ⟨entry, rfl, walked, reach, packing, extracted, e, placed, walks, consumed, moved, shared,
      limited⟩

/-- The plan in which all assets have been placed, before requests are limited. -/
def placedPlan (i : Index) (config : Config) (target : Target) (entries : List Entry) :
    Report Plan := do
  let (walked, reach) ← i.walkedPlan target entries
  let consumers ← walked.consumers i reach
  let (extracted, e) ← walked.extractManualBundles i config consumers
  extracted.shareAssets i config e.claimed e.consumers

/-- Placing all assets leads to the plan. -/
def Places (i : Index) (config : Config) (entries : List Entry) (placed : Plan) : Prop :=
  ∃ target, (i.placedPlan config target entries).result = .ok placed

theorem Places.passes {placed : Plan} (places : i.Places config entries placed) :
    ∃ target walked reach packing extracted e,
      (i.walkedPlan target entries).result = .ok (walked, reach) ∧
      (walked.consumers i reach).result = .ok packing ∧
      (walked.extractManualBundles i config packing).result = .ok (extracted, e) ∧
      (extracted.shareAssets i config e.claimed e.consumers).result = .ok placed := by
  obtain ⟨target, success⟩ := places
  unfold placedPlan at success
  obtain ⟨⟨walked, reach⟩, walks, success⟩ := Report.result_bind_eq_ok.1 success
  obtain ⟨packing, consumed, success⟩ := Report.result_bind_eq_ok.1 success
  obtain ⟨⟨extracted, e⟩, moved, shared⟩ := Report.result_bind_eq_ok.1 success
  exact ⟨target, walked, reach, packing, extracted, e, walks, consumed, moved, shared⟩

theorem places_of_passes {target : Target} {walked extracted placed : Plan} {reach : Reach}
    {packing : KeyMap AssetKey (KeySet AssetKey)} {e : Extraction}
    (walks : (i.walkedPlan target entries).result = .ok (walked, reach))
    (consumed : (walked.consumers i reach).result = .ok packing)
    (moved : (walked.extractManualBundles i config packing).result = .ok (extracted, e))
    (shared : (extracted.shareAssets i config e.claimed e.consumers).result = .ok placed) :
    i.Places config entries placed :=
  ⟨target, Report.result_bind_eq_ok.2 ⟨_, walks, Report.result_bind_eq_ok.2 ⟨_, consumed,
    Report.result_bind_eq_ok.2 ⟨_, moved, shared⟩⟩⟩⟩

/-- Limiting the requests of the placed plan is all that is left to do. -/
theorem places_of_planTarget {p : Plan} (success : (i.planTarget config entries).result = .ok p) :
    ∃ placed, i.Places config entries placed ∧ (placed.limitRequests i config).result = .ok p := by
  obtain ⟨entry, _, walked, reach, packing, extracted, e, placed, walks, consumed, moved, shared,
    limited⟩ := planTarget_ok success
  exact ⟨placed, places_of_passes walks consumed moved shared, limited⟩

end CodeSplit.Index

namespace CodeSplit.Bundler

/-- A build is made of the plans of all targets. -/
theorem build_eq_ok_iff {config : Config} {g : AssetGraph} {b : Build} :
    (build config g).result = .ok b ↔ ∃ targets plans,
      (Index.ofGraph g).entriesByTarget g = .ok targets ∧
      (targets.entries.mapM fun e =>
        (((Index.ofGraph g).planTarget config e.2).mapFault (Fault.inTarget e.1)).result) =
          .ok plans ∧
      b = { index := .ofGraph g, plans, stats := .of (.ofGraph g) targets.size plans } := by
  constructor
  · intro success
    unfold build at success
    obtain ⟨made, planned, success⟩ := Report.result_bind_eq_ok.1 success
    cases success
    unfold planTargets at planned
    obtain ⟨_, _, planned⟩ := Report.result_bind_eq_ok.1 planned
    obtain ⟨targets, entered, planned⟩ := Report.result_bind_eq_ok.1 planned
    obtain ⟨_, _, planned⟩ := Report.result_bind_eq_ok.1 planned
    obtain ⟨_, _, planned⟩ := Report.result_bind_eq_ok.1 planned
    obtain ⟨plans, found, planned⟩ := Report.result_bind_eq_ok.1 planned
    cases planned
    rw [Report.result_mapM] at found
    exact ⟨targets, plans, entered, found, rfl⟩
  · rintro ⟨targets, plans, entered, found, rfl⟩
    rw [← Report.result_mapM] at found
    refine Report.result_bind_eq_ok.2 ⟨_, ?_, rfl⟩
    exact Report.result_bind_eq_ok.2 ⟨(), rfl, Report.result_bind_eq_ok.2 ⟨targets, entered,
      Report.result_bind_eq_ok.2 ⟨(), rfl, Report.result_bind_eq_ok.2 ⟨(), rfl,
        Report.result_bind_eq_ok.2 ⟨plans, found, rfl⟩⟩⟩⟩⟩

end CodeSplit.Bundler
