import CodeSplit.Proofs.CrossRootEdges
import CodeSplit.Proofs.Reliance
import CodeSplit.Proofs.RemovalTermination

/-!
No pass fails. The keys that the passes handle come from the entries and from dependencies that were
resolved, so that the index has an asset for each of them. An edge that creates a group leads to a
root with a group, or to one that relies on nothing. So the plan of a target can always be made,
unless limiting its requests does not come to an end.
-/
namespace CodeSplit

open Relation

namespace Report

variable {α β : Type}

/-- It has a result, or it goes on for longer than it may. -/
def ReturnsOrGoesOn (r : Report α) : Prop :=
  (∃ a, r.result = .ok a) ∨ r.result = .error (.misuse .endlessRemovals)

theorem ReturnsOrGoesOn.after {r : Report α} {next : α → Report β} {a : α}
    (first : r.result = .ok a) (rest : (next a).ReturnsOrGoesOn) :
    (r >>= next).ReturnsOrGoesOn := by
  refine rest.imp ?_ fun endless => result_bind_eq_error.2 (.inr ⟨a, first, endless⟩)
  rintro ⟨b, result⟩
  exact ⟨b, result_bind_eq_ok.2 ⟨a, first, result⟩⟩

end Report

namespace Index

variable {i : Index} {config : Config} {entries : List Entry}

/-- The index has an asset for every entry, and for all that dependencies lead to. -/
structure Covers (i : Index) (entries : List Entry) : Prop where
  resolved : i.ResolvesInside
  entered : ∀ entry ∈ entries, ∃ asset, i.asset? entry.asset = some asset

theorem Covers.known (covers : i.Covers entries) {x : AssetKey}
    (reachable : i.Reachable entries x) : i.Known x := by
  obtain ⟨entry, listed, path⟩ := reachable
  obtain ⟨asset, isAsset⟩ : ∃ asset, i.asset? x = some asset := by
    rcases path.cases_tail with same | ⟨y, _, resolves⟩
    · rw [same]
      exact covers.entered entry listed
    · exact covers.resolved y x resolves
  exact ⟨asset, asset_eq_ok_iff.2 isAsset⟩

section Walking

theorem Covers.collectRoots (covers : i.Covers entries) :
    (i.collectRoots entries).result = .ok (i.roots entries) := by
  have each : ∀ b ∈ i.sortedBoundaries entries, ∃ kind, i.boundaryDecision b = .ok kind := by
    intro b listed
    have boundary := (perm_arrange _ _).mem_iff.1 listed
    obtain ⟨reachable, link, member, resolved, _⟩ := mem_boundaries.1 boundary
    have source := mem_reachable.1 reachable
    obtain ⟨entry, isEntry, path⟩ := id source
    have target : i.Reachable entries b.target :=
      ⟨entry, isEntry, path.tail ⟨link, member, resolved⟩⟩
    obtain ⟨sourceId, named⟩ := (covers.known source).idOf
    obtain ⟨targetId, namedToo⟩ := (covers.known target).idOf
    exact ⟨_, bind_eq_ok_iff.2 ⟨targetId, namedToo, bind_eq_ok_iff.2 ⟨sourceId, named, rfl⟩⟩⟩
  obtain ⟨kinds, noted⟩ := exists_mapM_ok each
  exact Report.result_bind_eq_ok.2 ⟨kinds, noted, rfl⟩

theorem Resolves.known {a b : AssetKey} (resolves : i.Resolves a b) : i.Known a := by
  obtain ⟨link, member, _⟩ := resolves
  unfold links at member
  split at member
  · rename_i indexed isIndexed
    exact ⟨indexed.asset, asset_eq_ok_iff.2 (by rw [asset?, isIndexed, Option.map_some])⟩
  · cases member

/-- Whatever the roots are, what is reused was resolved to, and what reuses it has dependencies. -/
theorem walkRoots_ok (inside : i.ResolvesInside) (roots : KeyMap AssetKey Root) :
    (i.walkRoots roots).result = .ok (i.walks roots) := by
  have each : ∀ pair ∈ (i.reusedRoots roots).toList, ∃ kind, i.reuseDecision pair = .ok kind := by
    rintro ⟨reuser, reused⟩ listed
    obtain ⟨root, _, asset, path, reuses⟩ := mem_reusedRoots.1 listed
    obtain ⟨link, member, target, resolved, reuses⟩ := mem_stepsOf.1 reuses
    obtain ⟨rfl, _⟩ := step_eq_reuse_iff.1 reuses
    obtain ⟨isReused, known⟩ := inside asset target ⟨link, member, resolved⟩
    obtain ⟨reusedId, named⟩ := Known.idOf ⟨isReused, asset_eq_ok_iff.2 known⟩
    obtain ⟨next, resolves⟩ : ∃ next, i.Resolves reuser next := by
      rcases path.cases_head with rfl | ⟨next, enters, _⟩
      · exact ⟨target, link, member, resolved⟩
      · exact ⟨next, enters.resolves⟩
    obtain ⟨reuserId, namedToo⟩ := resolves.known.idOf
    exact ⟨_, bind_eq_ok_iff.2 ⟨reusedId, named, bind_eq_ok_iff.2 ⟨reuserId, namedToo, rfl⟩⟩⟩
  obtain ⟨kinds, noted⟩ := exists_mapM_ok each
  exact Report.result_bind_eq_ok.2 ⟨kinds, noted, rfl⟩

theorem Covers.exists_walkedPlan (covers : i.Covers entries) (target : Target) :
    ∃ walked reach, (i.walkedPlan target entries).result = .ok (walked, reach) :=
  ⟨_, _, Report.result_bind_eq_ok.2 ⟨_, covers.collectRoots,
    Report.result_bind_eq_ok.2 ⟨_, walkRoots_ok covers.resolved _, rfl⟩⟩⟩

variable {target : Target} {walked : Plan} {reach : Reach}

/-- Every edge that passes availability on leads to a root with a group. If all triggers of the
target together create no group, where those of the edge do, then the target is isolated and relies
on nothing. -/
theorem exists_groupGraph (inside : i.ResolvesInside)
    (walks : (i.walkedPlan target entries).result = .ok (walked, reach)) :
    ∃ graph, walked.groupGraph reach = .ok graph := by
  obtain ⟨rfl, rfl⟩ := walkedPlan_ok walks
  unfold Plan.groupGraph
  simp only []
  split
  · rename_i lost
    exfalso
    simp only [List.any_eq_true, Bool.and_eq_true, decide_eq_true_eq] at lost
    obtain ⟨e, listed, passes, ungrouped⟩ := lost
    obtain ⟨_, root, known, within⟩ := exists_roots_of_edge inside listed
    unfold Plan.passesAvailability Plan.root? at passes
    simp only [Plan.withGroups, known, Option.any_some, Bool.and_eq_true,
      Bool.not_eq_true'] at passes
    obtain ⟨creates, relies⟩ := passes
    have joint : root.triggers.createsGroup = false := by
      rw [Bool.eq_false_iff]
      exact fun grouped => ungrouped (Plan.mem_groupRoots.2 ⟨root, known, grouped⟩)
    obtain ⟨_, _, isolated, _⟩ := within.createsGroup creates joint
    simp [Triggers.startsEmpty, isolated] at relies
  · exact ⟨_, rfl⟩

end Walking

end Index

namespace Plan

variable {p : Plan} {i : Index} {config : Config} {reach : Reach}

theorem exists_consumers {graph : GroupGraph} (built : p.groupGraph reach = .ok graph)
    (known : ∀ root r, p.root? root = some r → i.Known root) :
    ∃ packing, (p.consumers i reach).result = .ok packing := by
  obtain ⟨ids, named⟩ : ∃ ids, p.roots.keys.mapM i.idOf = .ok ids := by
    refine exists_mapM_ok ?_
    intro root listed
    obtain ⟨r, isRoot⟩ := KeyMap.mem_keys_iff.1 listed
    exact (known root r isRoot).idOf
  cases result : (p.consumers i reach).result with
  | ok packing => exact ⟨packing, rfl⟩
  | error fault =>
    rw [consumers_eq_error_iff built, named] at result
    cases result

section Placing

variable {rule : ManualRule} {e : Extraction}

/-- A rule with partitions can be applied to any asset of the index, and leaves consumers to assets
of the index only. -/
theorem exists_moveMatching (splits : 1 ≤ rule.split) (scope : Option (KeySet AssetKey))
    {candidate : AssetKey × KeySet AssetKey} (known : i.Known candidate.1)
    (waits : ∀ x roots, e.consumers.get? x = some roots → i.Known x) :
    ∃ next, p.moveMatching i config rule scope e candidate = .ok next ∧
      ∀ x roots, next.consumers.get? x = some roots → i.Known x := by
  obtain ⟨asset, isAsset⟩ := id known
  obtain ⟨partition, partitioned⟩ : ∃ partition, rule.partitionOf asset.id = .ok partition := by
    unfold ManualRule.partitionOf
    rw [if_neg (by omega)]
    exact ⟨_, rfl⟩
  unfold moveMatching
  simp only []
  split
  · exact ⟨e, rfl, waits⟩
  · rw [isAsset]
    simp only [bind, Except.bind]
    split
    · rw [partitioned]
      refine ⟨_, rfl, ?_⟩
      intro x roots found
      simp only [Extraction.move, KeyMap.get?_insert] at found
      split at found
      · rename_i same
        exact same ▸ known
      · exact waits x roots found
    · exact ⟨e, rfl, waits⟩

theorem exists_extraction (p : Plan) (splits : ∀ rule ∈ config.manualRules, 1 ≤ rule.split)
    {packing : KeyMap AssetKey (KeySet AssetKey)}
    (waits : ∀ x roots, packing.get? x = some roots → i.Known x) :
    ∃ e, p.extraction i config packing = .ok e := by
  let waiting (e : Extraction) : Prop := ∀ x roots, e.consumers.get? x = some roots → i.Known x
  obtain ⟨e, extraction, _⟩ : ∃ e, p.extraction i config packing = .ok e ∧ waiting e := by
    refine exists_foldlM_ok_keeping waiting ?_ waits
    intro e before rule listed
    refine exists_foldlM_ok_keeping waiting ?_ before
    intro now current candidate member
    have known := before candidate.1 candidate.2 (KeyMap.get?_eq_some_iff.2 member)
    exact exists_moveMatching (splits rule listed) _ known current
  exact ⟨e, extraction⟩

theorem exists_extractManualBundles (p : Plan)
    (splits : ∀ rule ∈ config.manualRules, 1 ≤ rule.split)
    {packing : KeyMap AssetKey (KeySet AssetKey)}
    (waits : ∀ x roots, packing.get? x = some roots → i.Known x) :
    ∃ extracted e, (p.extractManualBundles i config packing).result = .ok (extracted, e) := by
  obtain ⟨e, extraction⟩ := exists_extraction p splits waits
  exact ⟨_, e, Report.result_bind_eq_ok.2 ⟨e, extraction, rfl⟩⟩

/-- An asset of the index can be placed or set aside. -/
theorem exists_consider (config : Config) (claimed : KeySet AssetKey) {s : Sharing}
    {entry : AssetKey × KeySet AssetKey} (known : i.Known entry.1)
    (roots : ∀ m ∈ entry.2, i.Known m) (sets : s.SetsInside i.Known) :
    ∃ next, Sharing.consider i config claimed s entry = .ok next ∧ next.SetsInside i.Known := by
  obtain ⟨next, step⟩ : ∃ next, Sharing.consider i config claimed s entry = .ok next := by
    obtain ⟨asset, isAsset⟩ := id known
    unfold Sharing.consider
    simp only [isAsset, bind, Except.bind]
    split
    · exact ⟨_, rfl⟩
    · exact ⟨_, rfl⟩
  exact ⟨next, step, sets.consider (fun _ _ => known) roots step⟩

theorem exists_settle (config : Config) (p : Plan)
    {entry : (List AssetKey × FileType) × KeySet AssetKey} (roots : ∀ m ∈ entry.1.1, i.Known m)
    (assets : ∀ x ∈ entry.2, i.Known x) :
    ∃ q, (Sharing.settle i config p entry).result = .ok q := by
  obtain ⟨ids, named⟩ := exists_mapM_ok fun m listed => (roots m listed).idOf
  refine Report.exists_result_bind (Index.exists_totalSize assets) ?_
  intro size _
  refine Report.exists_result_bind ⟨ids, named⟩ ?_
  intro _ _
  split
  · exact ⟨_, rfl⟩
  · exact ⟨_, rfl⟩

theorem exists_shareAssets (p : Plan) (config : Config) (claimed : KeySet AssetKey)
    {packing : KeyMap AssetKey (KeySet AssetKey)} (waits : Waits i.Known i.Known packing) :
    ∃ q, (p.shareAssets i config claimed packing).result = .ok q := by
  have start : Sharing.SetsInside ⟨p, ∅, 0⟩ i.Known := fun _ _ none => by cases none
  obtain ⟨s, considered, sets⟩ : ∃ s, packing.entries.foldlM (Sharing.consider i config claimed)
      ⟨p, ∅, 0⟩ = .ok s ∧ s.SetsInside i.Known := by
    refine exists_foldlM_ok_keeping (fun s : Sharing => s.SetsInside i.Known) ?_ start
    intro s current entry listed
    obtain ⟨known, roots⟩ := waits entry.1 entry.2 (KeyMap.get?_eq_some_iff.2 listed)
    exact exists_consider config claimed known roots current
  obtain ⟨shared, settled⟩ : ∃ shared,
      (s.provisional.entries.foldlM (Sharing.settle i config) s.plan).result = .ok shared := by
    rw [Report.result_foldlM]
    refine exists_foldlM_ok ?_ s.plan
    intro q entry listed
    obtain ⟨roots, assets⟩ := sets entry.1 entry.2 (KeyMap.get?_eq_some_iff.2 listed)
    exact exists_settle config q roots assets
  exact ⟨shared, Report.result_bind_eq_ok.2 ⟨s, considered,
    Report.result_bind_eq_ok.2 ⟨shared, settled, rfl⟩⟩⟩

end Placing

section Limiting

variable {limit : Nat} {groups : List AssetKey}

/-- Whatever number of steps it has, limiting returns or uses all of them. -/
theorem limitFrom_ok_or_endless (named : ∀ group ∈ groups, ∃ id, i.idOf group = .ok id)
    {fuel : Nat} {pending : List AssetKey} {changed : Bool} {removed : Nat}
    (within : p.Within i.Known) (inside : ∀ group ∈ pending, group ∈ groups) :
    (limitFrom i limit groups fuel pending changed removed p).ReturnsOrGoesOn := by
  induction fuel generalizing pending changed removed p with
  | zero => exact .inr rfl
  | succ fuel ih =>
    cases pending with
    | nil =>
      cases changed with
      | false => exact .inl ⟨_, rfl⟩
      | true => exact ih within fun _ listed => listed
    | cons group pending =>
      have later : ∀ other ∈ pending, other ∈ groups :=
        fun other listed => inside other (List.mem_cons_of_mem _ listed)
      obtain ⟨id, isId⟩ := named group (inside group List.mem_cons_self)
      unfold limitFrom
      split
      · exact ih within later
      · rcases removes_or_nothing within ⟨id, isId⟩ with nothing | ⟨q, removes⟩
        · exact .after nothing (.after isId (.after rfl (ih within later)))
        · have kept := removes.within within
          obtain ⟨removal, next, found, applied, pruned⟩ := removes
          exact .after found (.after applied (.after pruned (ih kept inside)))

theorem limitRequests_ok_or_endless (within : p.Within i.Known) (config : Config) :
    (p.limitRequests i config).ReturnsOrGoesOn := by
  have named : ∀ group ∈ p.groupRoots, ∃ id, i.idOf group = .ok id := by
    intro group listed
    obtain ⟨root, isRoot, _⟩ := mem_groupRoots.1 listed
    exact (within.roots group root isRoot).idOf
  have run : (limitFrom i config.maxParallelRequests p.groupRoots p.stepBudget p.groupRoots false 0
      p).ReturnsOrGoesOn :=
    limitFrom_ok_or_endless named within fun _ listed => listed
  unfold limitRequests
  split
  · exact .inl ⟨p, rfl⟩
  · rcases run with ⟨out, limited⟩ | endless
    · exact .after limited (.inl ⟨out.1, rfl⟩)
    · exact .inr (Report.result_bind_eq_error.2 (.inl endless))

end Limiting

end Plan

namespace Index

variable {i : Index} {config : Config} {entries : List Entry}

/-- All assets of a target can be placed. -/
theorem Covers.exists_placedPlan (covers : i.Covers entries)
    (splits : ∀ rule ∈ config.manualRules, 1 ≤ rule.split) (target : Target) :
    ∃ placed, (i.placedPlan config target entries).result = .ok placed := by
  obtain ⟨walked, reach, walks⟩ := covers.exists_walkedPlan target
  obtain ⟨graph, built⟩ := exists_groupGraph covers.resolved walks
  have roots : ∀ k root, (i.roots entries).get? k = some root → i.Known k :=
    fun _ _ found => .of_root found
  have start := within_of_walkedPlan walks roots
  obtain ⟨packing, consumed⟩ := Plan.exists_consumers built start.roots
  have waits : Waits i.Known i.Known packing := by
    intro x s found
    obtain ⟨⟨m, reached⟩, consumers⟩ := waits_of_consumers walks consumed roots x s found
    exact ⟨covers.known (.of_reachedBy reached), consumers⟩
  obtain ⟨extracted, e, moved⟩ := Plan.exists_extractManualBundles walked splits
    fun x roots found => (waits x roots found).1
  have known : ∀ x asset, i.asset x = .ok asset → i.Known x → i.Known x := fun _ _ _ known => known
  obtain ⟨_, left⟩ := start.extractManualBundles known waits moved
  obtain ⟨placed, shared⟩ := Plan.exists_shareAssets extracted config e.claimed left
  exact ⟨placed, Report.result_bind_eq_ok.2 ⟨_, walks, Report.result_bind_eq_ok.2 ⟨_, consumed,
    Report.result_bind_eq_ok.2 ⟨_, moved, shared⟩⟩⟩⟩

/-- Once all assets are placed, the plan is what limiting gives. -/
theorem planTarget_eq_limitRequests {entry : Entry} {placed : Plan}
    (first : entries.head? = some entry)
    (placing : (i.placedPlan config entry.target entries).result = .ok placed) :
    (i.planTarget config entries).result = (placed.limitRequests i config).result := by
  unfold placedPlan at placing
  obtain ⟨⟨walked, reach⟩, walks, placing⟩ := Report.result_bind_eq_ok.1 placing
  obtain ⟨packing, consumed, placing⟩ := Report.result_bind_eq_ok.1 placing
  obtain ⟨⟨extracted, e⟩, moved, shared⟩ := Report.result_bind_eq_ok.1 placing
  simp only [planTarget, first, Report.bind_eq, walks, consumed, moved, shared, Report.pure_eq]

/-- Limiting the requests of a target, once its assets are placed, comes to an end, as it does where
reuse does not go in a circle. -/
def Stops (i : Index) (config : Config) (entries : List Entry) : Prop :=
  ∀ entry placed, entries.head? = some entry →
    (i.placedPlan config entry.target entries).result = .ok placed →
      config.disableSharedBundles = false → placed.LimitEnds i config.maxParallelRequests

/-- A target with entries has a plan if limiting comes to an end. -/
theorem Covers.exists_planTarget (covers : i.Covers entries)
    (splits : ∀ rule ∈ config.manualRules, 1 ≤ rule.split) (some : entries ≠ [])
    (stops : i.Stops config entries) : ∃ p, (i.planTarget config entries).result = .ok p := by
  obtain ⟨entry, first⟩ := Option.isSome_iff_exists.1 (List.isSome_head?.2 some)
  obtain ⟨placed, placing⟩ := covers.exists_placedPlan splits entry.target
  have places : i.Places config entries placed := ⟨entry.target, placing⟩
  rw [planTarget_eq_limitRequests first placing]
  refine (Plan.limitRequests_ok_or_endless places.within_known config).resolve_right ?_
  intro endless
  obtain ⟨enabled, never⟩ := Plan.limitRequests_endless_iff.1 endless
  exact never (stops entry placed first placing enabled)

end Index

end CodeSplit
