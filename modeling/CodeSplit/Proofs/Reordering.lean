import CodeSplit.Bundler
import CodeSplit.Proofs.LinkOrder

/-!
Bundling does not depend on the order in which an asset graph was built. After the walks from the
roots, all passes read from the index only which asset has which key.
-/
namespace CodeSplit

namespace Index.Agree

variable {i j : Index} {known : Dependency → Prop}

theorem consumers_eq (agree : i.Agree j) (p : Plan) (reach : Reach) :
    p.consumers i reach = p.consumers j reach := by
  have decisions : Plan.availabilityDecision i = Plan.availabilityDecision j := by
    funext e
    rw [Plan.availabilityDecision, Plan.availabilityDecision, agree.idOf_eq]
  rw [Plan.consumers, Plan.consumers, decisions]

theorem synchronousSubgraph_eq (agree : i.Agree j) :
    i.synchronousSubgraph = j.synchronousSubgraph := by
  funext projectRoot root
  have covered (i : Index) (k : AssetKey) (some : i.synchronousSuccessors k ≠ []) : k ∈ i.keys :=
    mem_keys_of_filterMap some
  have same (k target : AssetKey) :
      target ∈ i.synchronousSuccessors k ↔ target ∈ j.synchronousSuccessors k :=
    ((agree.links k).filterMap _).mem_iff
  apply KeySet.ext
  intro x
  unfold synchronousSubgraph
  rw [KeySet.mem_ofList, KeySet.mem_ofList, agree.keys_eq, agree.asset?_eq]
  exact (Walk.perm_explore (agree.keys_eq ▸ covered i) (covered j) (fun _ => .rfl) same).mem_iff

theorem extractManualBundles_eq (agree : i.Agree j) (p : Plan) (config : Config)
    (consumers : KeyMap AssetKey (KeySet AssetKey)) :
    p.extractManualBundles i config consumers = p.extractManualBundles j config consumers := by
  have moves : p.moveMatching i config = p.moveMatching j config := by
    funext rule scope e candidate
    rw [Plan.moveMatching, Plan.moveMatching, agree.asset_eq]
  have rules : p.applyRule i config = p.applyRule j config := by
    funext e rule
    rw [Plan.applyRule, Plan.applyRule, moves, agree.synchronousSubgraph_eq]
  have extraction : p.extraction i config consumers = p.extraction j config consumers := by
    rw [Plan.extraction, Plan.extraction, rules]
  rw [Plan.extractManualBundles, Plan.extractManualBundles, extraction]

theorem shareAssets_eq (agree : i.Agree j) (p : Plan) (config : Config) (claimed : KeySet AssetKey)
    (consumers : KeyMap AssetKey (KeySet AssetKey)) :
    p.shareAssets i config claimed consumers = p.shareAssets j config claimed consumers := by
  have considered : Sharing.consider i config claimed = Sharing.consider j config claimed := by
    funext s e
    rw [Sharing.consider, Sharing.consider, agree.asset_eq]
  have settled : Sharing.settle i config = Sharing.settle j config := by
    funext p e
    rw [Sharing.settle, Sharing.settle, agree.totalSize_eq, agree.idOf_eq]
  rw [Plan.shareAssets, Plan.shareAssets, considered, settled]

theorem nextRemoval?_eq (agree : i.Agree j) (p : Plan) (group : AssetKey) :
    p.nextRemoval? i group = p.nextRemoval? j group := by
  have shared : p.sharedRemoval? i = p.sharedRemoval? j := by
    funext members place b
    rw [Plan.sharedRemoval?, Plan.sharedRemoval?, agree.idsOf_eq]
  have reused : p.reusedRemoval? i = p.reusedRemoval? j := by
    funext own root
    rw [Plan.reusedRemoval?, Plan.reusedRemoval?, agree.idsOf_eq, agree.totalSize_eq]
  rw [Plan.nextRemoval?, Plan.nextRemoval?, Plan.removals, Plan.removals, shared, reused]

theorem applyRemoval_eq (agree : i.Agree j) (p : Plan) (group : AssetKey) (r : Removal) :
    p.applyRemoval i group r = p.applyRemoval j group r := by
  rw [Plan.applyRemoval, Plan.applyRemoval, agree.idOf_eq]

theorem prune_eq (agree : i.Agree j) (p : Plan) : p.prune i = p.prune j := by
  have dissolved (p : Plan) : p.dissolve i = p.dissolve j := by
    funext b
    rw [Plan.dissolve, Plan.dissolve, agree.idsOf_eq]
  rw [Plan.prune, Plan.prune]
  simp only [dissolved]

theorem limitFrom_eq (agree : i.Agree j) (limit : Nat) (groups : List AssetKey) (fuel : Nat)
    (pending : List AssetKey) (changed : Bool) (removed : Nat) (p : Plan) :
    Plan.limitFrom i limit groups fuel pending changed removed p =
      Plan.limitFrom j limit groups fuel pending changed removed p := by
  induction fuel generalizing pending changed removed p with
  | zero => rfl
  | succ fuel ih =>
    cases pending with
    | nil =>
      unfold Plan.limitFrom
      simp only [ih]
    | cons group pending =>
      unfold Plan.limitFrom
      simp only [ih, agree.nextRemoval?_eq, agree.applyRemoval_eq, agree.prune_eq, agree.idOf_eq]

theorem limitRequests_eq (agree : i.Agree j) (p : Plan) (config : Config) :
    p.limitRequests i config = p.limitRequests j config := by
  unfold Plan.limitRequests
  simp only [agree.limitFrom_eq]

theorem planTarget_eq (agree : i.Agree j) (declared : i.DeclaredOnce known) (config : Config)
    {entries : List Entry} (entriesKnown : ∀ e ∈ entries, known e.dependency) :
    i.planTarget config entries = j.planTarget config entries := by
  have walked (target : Target) : i.walkedPlan target entries = j.walkedPlan target entries := by
    unfold walkedPlan
    simp only [agree.collectRoots_eq declared entriesKnown (.refl _), agree.walkRoots_eq declared]
  unfold planTarget
  simp only [walked, agree.consumers_eq, agree.extractManualBundles_eq, agree.shareAssets_eq,
    agree.limitRequests_eq]

theorem writePlan_eq (agree : i.Agree j) (g : BundleGraph) (config : Config) (p : Plan) :
    g.writePlan i config p = g.writePlan j config p := by
  have buckets : p.bucketBundle i config = p.bucketBundle j config := by
    funext key root fileType assets
    have stems : Plan.stem i config key root = Plan.stem j config key root := by
      rw [Plan.stem, Plan.stem, agree.asset_eq]
    rw [Plan.bucketBundle, Plan.bucketBundle, stems, agree.idsOf_eq, agree.totalSize_eq]
  have environments : p.consumerEnv i = p.consumerEnv j := by
    funext consumers assets
    rw [Plan.consumerEnv, Plan.consumerEnv, agree.asset_eq]
  have shared : p.sharedBundle i = p.sharedBundle j := by
    funext b
    rw [Plan.sharedBundle, Plan.sharedBundle, environments, agree.idsOf_eq]
  have manual : p.manualBundle i = p.manualBundle j := by
    funext key b
    rw [Plan.manualBundle, Plan.manualBundle, environments, agree.idsOf_eq, agree.totalSize_eq]
  have planned : p.plannedBundles i config = p.plannedBundles j config := by
    rw [Plan.plannedBundles, Plan.plannedBundles, buckets, shared, manual]
  have edges (w : WrittenPlan) : w.dependencyEdges i = w.dependencyEdges j := by
    have edge : w.dependencyEdge? i = w.dependencyEdge? j := by
      funext groups e
      rw [WrittenPlan.dependencyEdge?, WrittenPlan.dependencyEdge?, agree.asset_eq]
    funext groups
    rw [WrittenPlan.dependencyEdges, WrittenPlan.dependencyEdges, edge]
  unfold BundleGraph.writePlan
  simp only [planned, edges]

theorem writePlans_eq (agree : i.Agree j) (config : Config) (plans : List Plan) (g : BundleGraph) :
    Bundler.writePlans i config plans g = Bundler.writePlans j config plans g := by
  induction plans generalizing g with
  | nil => rfl
  | cons p plans ih =>
    unfold Bundler.writePlans
    simp only [ih, agree.writePlan_eq]

end Index.Agree

namespace Bundler

/-- Both reports have the same notes and the same outcome, apart from the index that comes along. -/
structure SamePlans (i j : Index) (r s : Report Build) : Prop where
  notes : r.notes = s.notes
  result : (∃ e, r.result = .error e ∧ s.result = .error e) ∨
    ∃ plans stats, r.result = .ok ⟨i, plans, stats⟩ ∧ s.result = .ok ⟨j, plans, stats⟩

variable {i j : Index}

theorem SamePlans.pure (plans : List Plan) (stats : Stats) :
    SamePlans i j (Pure.pure ⟨i, plans, stats⟩) (Pure.pure ⟨j, plans, stats⟩) :=
  ⟨rfl, .inr ⟨plans, stats, rfl, rfl⟩⟩

theorem SamePlans.bind {α : Type} {x y : Report α} {next other : α → Report Build} (same : x = y)
    (each : ∀ a, x.result = .ok a → SamePlans i j (next a) (other a)) :
    SamePlans i j (x >>= next) (y >>= other) := by
  subst same
  rw [Report.bind_eq, Report.bind_eq]
  cases found : x.result with
  | error e => exact ⟨rfl, .inl ⟨e, rfl, rfl⟩⟩
  | ok a =>
    obtain ⟨notes, result⟩ := each a found
    exact ⟨congrArg (x.notes ++ ·) notes, result⟩

variable {g h : AssetGraph}

theorem samePlans_planTargets (same : g.SameContents h) (single : g.SingleEnded)
    (distinct : g.DistinctKeys) (distinctToo : h.DistinctKeys) (config : Config) :
    SamePlans (.ofGraph g) (.ofGraph h) (planTargets config g) (planTargets config h) := by
  have agree := Index.agree_ofGraph same single distinct distinctToo
  have declared := Index.declaredOnce_ofGraph single distinct
  have sameEntries := Index.entriesByTarget_eq same single distinct distinctToo
  unfold planTargets
  simp only [Index.indexedEvent, ← agree.size_eq, ← agree.dependencyCount_eq, ← sameEntries]
  refine .bind rfl fun _ _ => .bind rfl fun entries found => .bind rfl fun _ _ =>
    .bind rfl fun _ _ => .bind (mapM_congr ?_) fun plans _ => ?_
  · intro target listed
    obtain ⟨name, entries⟩ := target
    have entriesKnown : ∀ e ∈ entries, .dependency e.dependency ∈ g.nodes := by
      intro e member
      exact Index.entry_known found (KeyMap.get?_eq_some_iff.2 listed) member
    exact congrArg (Report.mapFault _) (agree.planTarget_eq declared config entriesKnown)
  · have sameStats : Stats.of (.ofGraph g) entries.size plans =
        Stats.of (.ofGraph h) entries.size plans := by
      rw [Stats.of, Stats.of, agree.size_eq, agree.dependencyCount_eq]
    rw [sameStats]
    exact .pure plans _

theorem samePlans_build {config : Config}
    (planned : SamePlans i j (planTargets config g) (planTargets config h)) :
    SamePlans i j (build config g) (build config h) := by
  obtain ⟨notes, result⟩ := planned
  have decisions : (planTargets config g).decisions = (planTargets config h).decisions := by
    rw [Report.decisions, Report.decisions, notes]
  unfold build
  simp only [decisions, Report.bind_eq]
  rcases result with ⟨e, left, right⟩ | ⟨plans, stats, left, right⟩
  · rw [left, right]
    exact ⟨notes, .inl ⟨e, rfl, rfl⟩⟩
  · rw [left, right]
    exact ⟨by simp [notes], .inr ⟨plans, stats, rfl, rfl⟩⟩

/-- Graphs with the same nodes and edges are bundled in the same way, whatever the order in which
they were built: with the same fault, or into the same bundle graph with the same log. -/
theorem bundle_eq_of_sameContents (built : g.Built) (builtToo : h.Built)
    (same : g.SameContents h) (single : g.SingleEnded) (config : Config) (into : BundleGraph) :
    bundle config g into = bundle config h into := by
  have distinct := built.distinctKeys
  have distinctToo := builtToo.distinctKeys
  have agree := Index.agree_ofGraph same single distinct distinctToo
  obtain ⟨notes, result⟩ :=
    samePlans_build (samePlans_planTargets same single distinct distinctToo config)
  have decisions : (build config g).decisions = (build config h).decisions := by
    rw [Report.decisions, Report.decisions, notes]
  unfold bundle
  rcases result with ⟨e, left, right⟩ | ⟨plans, stats, left, right⟩
  · simp only [left, right, notes]
  · simp only [left, right, notes, decisions, agree.writePlans_eq]

/-- A page that loads two panels, built from the page on. -/
def pageFirst : AssetGraph :=
  let entries := (AssetGraph.empty.addEntryDependency
    { id := "entry", specifier := "page", isEntry := true }).1
  let page := (entries.addAsset { id := "page" }).1.link 1 2
  let first :=
    (page.addDependency { id := "first", specifier := "a", priority := .lazy }).1.link 2 3
  let second :=
    (first.addDependency { id := "second", specifier := "b", priority := .lazy }).1.link 2 4
  (((second.addAsset { id := "a" }).1.addAsset { id := "b" }).1.link 3 5).link 4 6

/-- The same page, built from the panels on and with its dependencies the other way round. -/
def panelsFirst : AssetGraph :=
  let panels := ((AssetGraph.empty.addAsset { id := "b" }).1.addAsset { id := "a" }).1
  let second :=
    (panels.addDependency { id := "second", specifier := "b", priority := .lazy }).1.link 3 1
  let first :=
    (second.addDependency { id := "first", specifier := "a", priority := .lazy }).1.link 4 2
  let page := ((first.addAsset { id := "page" }).1.link 5 3).link 5 4
  (page.addEntryDependency { id := "entry", specifier := "page", isEntry := true }).1.link 6 5

theorem bundle_pageFirst :
    pageFirst.Built ∧ panelsFirst.Built ∧ pageFirst.SameContents panelsFirst ∧
      pageFirst.SingleEnded ∧
      pageFirst.leadsTo (.asset { id := "page" }) ≠ panelsFirst.leadsTo (.asset { id := "page" }) ∧
      bundle {} pageFirst {} = bundle {} panelsFirst {} := by
  have built : pageFirst.Built := by
    refine .link (.link (.addAsset _ (.addAsset _ (.link (.addDependency _ (.link (.addDependency _
      (.link (.addAsset _ (.addEntryDependency _ .empty)) ?_ ?_)) ?_ ?_)) ?_ ?_))) ?_ ?_) ?_ ?_
    all_goals decide
  have builtToo : panelsFirst.Built := by
    refine .link (.addEntryDependency _ (.link (.link (.addAsset _ (.link (.addDependency _ (.link
      (.addDependency _ (.addAsset _ (.addAsset _ .empty))) ?_ ?_)) ?_ ?_)) ?_ ?_) ?_ ?_)) ?_ ?_
    all_goals decide
  have same : pageFirst.SameContents panelsFirst := ⟨by decide, by decide⟩
  have single : pageFirst.SingleEnded := by
    unfold AssetGraph.SingleEnded
    decide
  exact ⟨built, builtToo, same, single, by decide,
    bundle_eq_of_sameContents built builtToo same single {} {}⟩

end Bundler

end CodeSplit
