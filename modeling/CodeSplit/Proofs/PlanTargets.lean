import CodeSplit.Proofs.UnloadedBundles

/-!
The target of a plan. No pass changes it, so that a plan is for the target whose entries it was made
from, and its plan before requests are limited is that of the same entries.
-/
namespace CodeSplit

namespace Plan

variable {p q : Plan} {i : Index} {config : Config} {group : AssetKey}

theorem Packs.target (packs : Packs p q) : q.target = p.target := by rw [packs.frame]

theorem target_copyReused (p : Plan) (reused : AssetKey) (buckets : Buckets)
    (nested : List AssetKey) (outgoing : List BundleEdge) (reuser : AssetKey) :
    (p.copyReused reused buckets nested outgoing reuser).target = p.target := by
  have packs := Packs.foldl (fun p (entry : FileType × KeySet AssetKey) =>
    packs_packAll p reuser entry.1 entry.2.toList) buckets.entries p
  obtain ⟨frame, _⟩ := foldl_addEdge (fun e => { e with source := reuser })
    (outgoing.filter fun e => e.target ≠ reuser)
    (buckets.entries.foldl (fun p entry => p.packAll reuser entry.1 entry.2.toList) p)
  have rewired : (p.rewired reused buckets nested outgoing reuser).target = p.target :=
    (congrArg Plan.target frame).trans packs.target
  rw [copyReused_eq]
  split
  · exact (Packs.foldl (fun p (b : SharedBundle) =>
      packs_packAll p reuser b.fileType b.assets.toList) _ _).target.trans rewired
  · exact rewired

theorem Removes.target (removes : p.Removes i group q) : q.target = p.target := by
  rcases removes.cases with ⟨place, b, found, _, pruned⟩ | ⟨reused, reusers, _, _, pruned⟩
  · refine (packs_prune pruned).target.trans ?_
    unfold removeShared
    rw [found]
    exact (packs_packAll_each p _ b.fileType b.assets.toList).target
  · refine (packs_prune pruned).target.trans ?_
    refine removeReused_induction (fun q => q.withGroups.target = p.target) rfl ?_
    intro q same reuser _
    exact (target_copyReused q reused _ _ _ reuser).trans same

theorem target_shareAssets {claimed : KeySet AssetKey} {packing : KeyMap AssetKey (KeySet AssetKey)}
    (success : (p.shareAssets i config claimed packing).result = .ok q) : q.target = p.target := by
  unfold shareAssets at success
  obtain ⟨s, considered, success⟩ := Report.result_bind_eq_ok.1 success
  obtain ⟨_, settled, success⟩ := Report.result_bind_eq_ok.1 success
  cases success
  rw [Report.result_foldlM] at settled
  have packs : s.plan.target = p.target := by
    refine foldlM_ok_induction (fun _ s => s.plan.target = p.target) ?_ rfl considered
    intro entry _ before after same step
    exact (Sharing.consider_ok step).1.target.trans same
  refine foldlM_ok_induction (fun _ q => q.target = p.target) ?_ packs settled
  intro entry _ before after same step
  obtain ⟨size, _, ⟨_, rfl⟩ | ⟨_, rfl⟩⟩ := Sharing.settle_cases step
  · exact (packs_packAll_each before _ _ _).target.trans same
  · exact same

/-- The plan of some entries is for the target of the first of them, and comes from placing all
assets for this target. -/
theorem target_of_planTarget {entries : List Entry}
    (success : (i.planTarget config entries).result = .ok p) :
    (∃ entry ∈ entries, p.target = entry.target) ∧
      ∃ placed, (i.placedPlan config p.target entries).result = .ok placed ∧
        (placed.limitRequests i config).result = .ok p := by
  obtain ⟨entry, first, walked, reach, packing, extracted, e, placed, walks, consumed, moved,
    shared, limited⟩ := Index.planTarget_ok success
  obtain ⟨_, run⟩ := removesIn_of_limitRequests limited
  have limiting : p.target = placed.target :=
    run.keeps (motive := fun q => q.target = placed.target)
      (fun _ _ _ same removes => removes.target.trans same) rfl
  have unmoved : extracted.target = walked.target := by
    obtain ⟨_, rfl⟩ := extractManualBundles_ok moved
    rfl
  have same : p.target = entry.target := by
    rw [limiting, target_shareAssets shared, unmoved, (Index.walkedPlan_ok walks).1]
    rfl
  refine ⟨⟨entry, List.mem_of_mem_head? first, same⟩, placed, ?_, limited⟩
  rw [same]
  exact Report.result_bind_eq_ok.2 ⟨_, walks, Report.result_bind_eq_ok.2 ⟨_, consumed,
    Report.result_bind_eq_ok.2 ⟨_, moved, shared⟩⟩⟩

end Plan

/-- A plan of a build is made from the entries of its target. -/
theorem Bundler.planned_of_build {config : Config} {g : AssetGraph} {build : Build}
    (built : (Bundler.build config g).result = .ok build) {p : Plan} (isPlan : p ∈ build.plans) :
    ∃ targets entries, (Index.ofGraph g).entriesByTarget g = .ok targets ∧
      targets.get? p.target.name = some entries ∧
      ((Index.ofGraph g).planTarget config entries).result = .ok p := by
  obtain ⟨targets, plans, entered, found, rfl⟩ := build_eq_ok_iff.1 built
  obtain ⟨e, listed, made⟩ := exists_of_mem_result found isPlan
  have planned := Report.result_mapFault.1 made
  have known := KeyMap.get?_eq_some_iff.2 listed
  obtain ⟨⟨entry, isEntry, same⟩, _⟩ := Plan.target_of_planTarget planned
  have named : p.target.name = e.1 := by
    rw [same]
    exact (Index.entry_of_target entered known isEntry).1
  exact ⟨targets, e.2, entered, named ▸ known, planned⟩

end CodeSplit
