import CodeSplit.Proofs.Packing

/-!
From consumers to bundles. When assets are moved into manual bundles and the rest is placed or
shared, every root that had to package an asset holds it in the end, and nothing else of the plan
changes.
-/
namespace CodeSplit

namespace Plan

variable {p q r : Plan} {root x : AssetKey}

/-- Two plans with the same roots that load and reuse each other in the same way. -/
structure SameShape (p q : Plan) : Prop where
  roots : q.roots = p.roots
  edges : q.edges = p.edges
  reused : q.reused = p.reused
  ownGroups : q.ownGroups = p.ownGroups

/-- The second plan has the shape of the first, and every root holds what it held. -/
structure Enriches (p q : Plan) : Prop extends SameShape p q where
  holds : ∀ root x, p.Holds root x → q.Holds root x

theorem SameShape.trans (first : SameShape p q) (second : SameShape q r) : SameShape p r where
  roots := second.roots.trans first.roots
  edges := second.edges.trans first.edges
  reused := second.reused.trans first.reused
  ownGroups := second.ownGroups.trans first.ownGroups

theorem Enriches.refl (p : Plan) : Enriches p p := ⟨⟨rfl, rfl, rfl, rfl⟩, fun _ _ held => held⟩

theorem Enriches.trans (first : Enriches p q) (second : Enriches q r) : Enriches p r :=
  ⟨first.toSameShape.trans second.toSameShape,
    fun root x held => second.holds root x (first.holds root x held)⟩

theorem Packs.enriches (packs : Packs p q) : Enriches p q :=
  ⟨⟨packs.roots, packs.edges, packs.reused, packs.ownGroups⟩, fun _ _ held => packs.holds held⟩

theorem SameShape.loadsIn_iff (same : SameShape p q) {group : AssetKey} :
    q.LoadsIn group root ↔ p.LoadsIn group root := by
  have reuses : q.Reuses = p.Reuses := by
    unfold Reuses
    rw [same.reused]
  unfold LoadsIn groupsOf
  rw [reuses, same.ownGroups]

end Plan

namespace Extraction

open Plan

variable {p : Plan} {e next : Extraction} {m x : AssetKey}

/-- The root still has to package the asset, or takes it from a manual bundle. -/
def Covers (e : Extraction) (m x : AssetKey) : Prop :=
  m ∈ e.consumers.setAt x ∨
    ∃ key b, e.bundles.get? key = some b ∧ x ∈ b.assets ∧ m ∈ b.consumers

theorem covers_move (e : Extraction) (key : ManualKey) (asset : AssetKey)
    (consumers moved : KeySet AssetKey) (current : e.consumers.get? asset = some consumers)
    (covered : e.Covers m x) : (e.move key asset consumers moved).Covers m x := by
  unfold Covers move
  simp only [KeyMap.get?_update, KeyMap.setAt, KeyMap.get?_insert]
  rcases covered with waiting | ⟨k, b, found, member, consumer⟩
  · by_cases same : asset = x
    · subst same
      rw [KeyMap.setAt, current, Option.getD_some] at waiting
      by_cases taken : m ∈ moved
      · refine .inr ⟨key, _, if_pos rfl, ?_, ?_⟩
        · exact KeySet.mem_insert.2 (.inl rfl)
        · exact KeySet.mem_union.2 (.inr taken)
      · exact .inl (by simp [waiting, taken])
    · exact .inl (by simpa [same, KeyMap.setAt] using waiting)
  · right
    by_cases same : key = k
    · subst same
      refine ⟨key, _, if_pos rfl, ?_, ?_⟩
      · rw [found]
        exact KeySet.mem_insert.2 (.inr member)
      · rw [found]
        exact KeySet.mem_union.2 (.inl consumer)
    · exact ⟨k, b, by rw [if_neg same, found], member, consumer⟩

/-- A rule leaves an extraction alone, or it names the asset that it looks at, which no rule has
claimed, and moves it out of those consumers that allow it. -/
theorem moveMatching_cases {i : Index} {config : Config} {rule : ManualRule}
    {scope : Option (KeySet AssetKey)} {candidate : AssetKey × KeySet AssetKey}
    (success : p.moveMatching i config rule scope e candidate = .ok next) :
    next = e ∨ ∃ asset partition, candidate.1 ∉ e.claimed ∧ i.asset candidate.1 = .ok asset ∧
      p.isNamedBy config rule candidate.1 asset = true ∧ (∀ s ∈ scope, candidate.1 ∈ s) ∧
      (p.extractableConsumers candidate.2).isEmpty = false ∧
      rule.partitionOf asset.id = .ok partition ∧
      next = e.move ⟨rule.name, asset.fileType, partition, rule.split⟩ candidate.1 candidate.2
        (p.extractableConsumers candidate.2) := by
  obtain ⟨key, consumers⟩ := candidate
  unfold moveMatching at success
  simp only [] at success
  split at success
  · cases success
    exact .inl rfl
  · rename_i unclaimed
    obtain ⟨asset, known, success⟩ := bind_eq_ok_iff.1 success
    split at success
    · rename_i moves
      obtain ⟨partition, part, success⟩ := bind_eq_ok_iff.1 success
      cases success
      simp only [Bool.and_eq_true, Bool.not_eq_true', Option.all_eq_true, decide_eq_true_eq]
        at moves
      obtain ⟨⟨named, inScope⟩, some⟩ := moves
      exact .inr ⟨asset, partition, unclaimed, known, named, inScope, some, part, rfl⟩
    · cases success
      exact .inl rfl

/-- A rule names an asset that no rule has claimed, and some of the consumers that the asset has
left allow it to be moved. -/
structure Moves (p : Plan) (i : Index) (config : Config) (e : Extraction) (rule : ManualRule)
    (key : AssetKey) (asset : Asset) (consumers : KeySet AssetKey) (partition : Nat) : Prop where
  listed : rule ∈ config.manualRules
  unclaimed : key ∉ e.claimed
  current : e.consumers.get? key = some consumers
  known : i.asset key = .ok asset
  named : p.isNamedBy config rule key asset = true
  inScope : ∀ s ∈ rule.root.map (i.synchronousSubgraph config.projectRoot), key ∈ s
  taken : (p.extractableConsumers consumers).isEmpty = false
  part : rule.partitionOf asset.id = .ok partition

/-- What every move keeps, applying all rules keeps. -/
theorem extraction_induction {i : Index} {config : Config}
    {packing : KeyMap AssetKey (KeySet AssetKey)} (motive : Extraction → Prop)
    (step : ∀ e rule key asset consumers partition, motive e →
      Moves p i config e rule key asset consumers partition →
        motive (e.move ⟨rule.name, asset.fileType, partition, rule.split⟩ key consumers
          (p.extractableConsumers consumers)))
    (start : motive { bundles := p.manualBundles, consumers := packing })
    (success : p.extraction i config packing = .ok e) : motive e := by
  unfold extraction at success
  refine (foldlM_ok_induction
    (fun rules e => (∀ rule ∈ rules, rule ∈ config.manualRules) ∧ motive e) ?_
    ⟨fun _ listed => listed, start⟩ success).2
  intro rule rules before after current applied
  obtain ⟨listed, holds⟩ := current
  refine ⟨fun other later => listed other (List.mem_cons_of_mem _ later), ?_⟩
  unfold applyRule at applied
  -- while a rule goes through its candidates, those still to come are as they were
  refine (foldlM_ok_induction (fun rest e => rest.Pairwise (fun a b => a.1 ≠ b.1) ∧
    (∀ c ∈ rest, e.consumers.get? c.1 = some c.2) ∧ motive e) ?_ ⟨?_, ?_, holds⟩ applied).2.2
  · intro candidate rest e next current moved
    obtain ⟨distinct, untouched, holds⟩ := current
    obtain ⟨fresh, distinct⟩ := List.pairwise_cons.1 distinct
    have later : ∀ c ∈ rest, e.consumers.get? c.1 = some c.2 :=
      fun c member => untouched c (List.mem_cons_of_mem _ member)
    rcases moveMatching_cases moved with
      rfl | ⟨asset, partition, unclaimed, known, named, inScope, taken, part, rfl⟩
    · exact ⟨distinct, later, holds⟩
    · refine ⟨distinct, ?_, step e rule candidate.1 asset candidate.2 partition holds
        ⟨listed rule List.mem_cons_self, unclaimed, untouched candidate List.mem_cons_self, known,
          named, inScope, taken, part⟩⟩
      intro c member
      show (e.consumers.insert candidate.1 _).get? c.1 = some c.2
      rw [KeyMap.get?_insert, if_neg (fresh c member), later c member]
  · exact before.consumers.ascending.imp fun earlier => KeyOrder.ne_of_before earlier
  · exact fun c member => KeyMap.get?_eq_some_iff.2 member

theorem covers_extraction {i : Index} {config : Config}
    {packing : KeyMap AssetKey (KeySet AssetKey)}
    (success : p.extraction i config packing = .ok e) (member : m ∈ packing.setAt x) :
    e.Covers m x := by
  refine extraction_induction (fun e => e.Covers m x) ?_ (.inl member) success
  intro e rule key asset consumers partition covered moves
  exact covers_move e _ key consumers _ moves.current covered

end Extraction

namespace Sharing

open Plan

variable {s next : Sharing} {m x : AssetKey}

/-- The asset is in a bundle of the root, or set aside to be shared with it. -/
def Covers (s : Sharing) (m x : AssetKey) : Prop :=
  s.plan.Packages m x ∨
    ∃ roots fileType, m ∈ roots ∧ x ∈ s.provisional.setAt (roots, fileType)

/-- An asset is set aside to be shared by those consumers that load shared bundles, or all of its
consumers get it. -/
theorem consider_cases {i : Index} {config : Config} {claimed : KeySet AssetKey}
    {entry : AssetKey × KeySet AssetKey} (success : consider i config claimed s entry = .ok next) :
    ∃ asset candidates, i.asset entry.1 = .ok asset ∧
      candidates = (entry.2.toList.filter fun r => !s.plan.packagesDirectly r) ∧
      ((s.plan.isShareable config claimed entry.1 asset candidates = true ∧
        next = { s with
          plan := s.plan.packInto (entry.2.toList.filter s.plan.packagesDirectly) asset.fileType
            entry.1
          provisional := s.provisional.update (candidates, asset.fileType) ∅ (·.insert entry.1) }) ∨
      (s.plan.isShareable config claimed entry.1 asset candidates = false ∧
        next = { s with
          plan := s.plan.packInto entry.2.toList asset.fileType entry.1
          duplicated := s.duplicated + if 1 < entry.2.size then 1 else 0 })) := by
  obtain ⟨key, consumers⟩ := entry
  unfold consider at success
  obtain ⟨asset, known, success⟩ := bind_eq_ok_iff.1 success
  refine ⟨asset, _, known, rfl, ?_⟩
  simp only [] at success
  split at success
  · rename_i shareable
    cases success
    exact .inl ⟨shareable, rfl⟩
  · rename_i unshareable
    cases success
    exact .inr ⟨by simpa using unshareable, rfl⟩

/-- Considering an asset covers all of its consumers and keeps what was covered. -/
theorem consider_ok {i : Index} {config : Config} {claimed : KeySet AssetKey}
    {entry : AssetKey × KeySet AssetKey} (success : consider i config claimed s entry = .ok next) :
    Packs s.plan next.plan ∧ (∀ m x, s.Covers m x → next.Covers m x) ∧
      ∀ m ∈ entry.2, next.Covers m entry.1 := by
  obtain ⟨asset, candidates, _, rfl, ⟨_, rfl⟩ | ⟨_, rfl⟩⟩ := consider_cases success
  · have packs := packs_packInto s.plan (entry.2.toList.filter s.plan.packagesDirectly)
      asset.fileType entry.1
    refine ⟨packs, ?_, ?_⟩
    · intro m x covered
      rcases covered with packed | ⟨roots, fileType, listed, waiting⟩
      · exact .inl (packs.packages packed)
      · refine .inr ⟨roots, fileType, listed, ?_⟩
        unfold KeyMap.setAt at waiting ⊢
        rw [KeyMap.get?_update]
        split
        · rename_i same
          rw [same]
          exact KeySet.mem_insert.2 (.inr waiting)
        · exact waiting
    · intro m consumer
      by_cases direct : s.plan.packagesDirectly m = true
      · exact .inl (packages_packInto s.plan asset.fileType
          (List.mem_filter.2 ⟨consumer, direct⟩) entry.1)
      · refine .inr ⟨entry.2.toList.filter fun r => !s.plan.packagesDirectly r, asset.fileType,
          ?_, ?_⟩
        · exact List.mem_filter.2 ⟨consumer, by simpa using direct⟩
        · unfold KeyMap.setAt
          rw [KeyMap.get?_update, if_pos rfl]
          exact KeySet.mem_insert.2 (.inl rfl)
  · have packs := packs_packInto s.plan entry.2.toList asset.fileType entry.1
    refine ⟨packs, ?_, ?_⟩
    · intro m x covered
      exact covered.imp packs.packages id
    · intro m consumer
      exact .inl (packages_packInto s.plan asset.fileType consumer entry.1)

/-- What was set aside for some roots becomes a shared bundle, or is packed into each of them where
it is too small for one. -/
theorem settle_cases {i : Index} {config : Config} {p q : Plan}
    {entry : (List AssetKey × FileType) × KeySet AssetKey}
    (success : (settle i config p entry).result = .ok q) :
    ∃ size, i.totalSize entry.2 = .ok size ∧
      ((size < config.minBundleSize ∧
        q = entry.1.1.foldl (fun p root => p.packAll root entry.1.2 entry.2.toList) p) ∨
      (config.minBundleSize ≤ size ∧
        q = { p with sharedBundles := p.sharedBundles ++
          [⟨entry.1.2, entry.2, KeySet.ofList entry.1.1, size, true⟩] })) := by
  obtain ⟨⟨roots, fileType⟩, assets⟩ := entry
  unfold settle at success
  obtain ⟨size, measured, success⟩ := Report.result_bind_eq_ok.1 success
  obtain ⟨rootIds, _, success⟩ := Report.result_bind_eq_ok.1 success
  refine ⟨size, measured, ?_⟩
  split at success
  · rename_i small
    cases success
    exact .inl ⟨small, rfl⟩
  · rename_i large
    cases success
    exact .inr ⟨Nat.le_of_not_lt large, rfl⟩

/-- Settling what was set aside for some roots: all of them hold it. -/
theorem settle_ok {i : Index} {config : Config} {p q : Plan}
    {entry : (List AssetKey × FileType) × KeySet AssetKey}
    (success : (settle i config p entry).result = .ok q) :
    Enriches p q ∧ ∀ m ∈ entry.1.1, ∀ x ∈ entry.2, q.Holds m x := by
  obtain ⟨⟨roots, fileType⟩, assets⟩ := entry
  obtain ⟨size, _, ⟨_, rfl⟩ | ⟨_, rfl⟩⟩ := settle_cases success
  · refine ⟨(packs_packAll_each p roots fileType assets.toList).enriches, ?_⟩
    intro m listed x member
    exact .inl (packages_packAll_each p fileType listed member)
  · refine ⟨⟨⟨rfl, rfl, rfl, rfl⟩, ?_⟩, ?_⟩
    · intro m x held
      rcases held with packed | ⟨b, member, has, consumer⟩ | manual
      · exact .inl packed
      · refine .inr (.inl ⟨b, ?_, has, consumer⟩)
        unfold liveSharedBundles
        rw [List.filter_append]
        exact List.mem_append_left _ member
      · exact .inr (.inr manual)
    · intro m listed x member
      refine .inr (.inl ⟨⟨fileType, assets, KeySet.ofList roots, size, true⟩, ?_, member,
        KeySet.mem_ofList.2 listed⟩)
      unfold liveSharedBundles
      simp

end Sharing

namespace Plan

variable {p q : Plan}

/-- Every root that has to package an asset holds it when all assets are placed. -/
theorem shareAssets_ok {i : Index} {config : Config} {claimed : KeySet AssetKey}
    {packing : KeyMap AssetKey (KeySet AssetKey)}
    (success : (p.shareAssets i config claimed packing).result = .ok q) :
    Enriches p q ∧ ∀ x, ∀ m ∈ packing.setAt x, q.Holds m x := by
  unfold shareAssets at success
  obtain ⟨s, considered, success⟩ := Report.result_bind_eq_ok.1 success
  obtain ⟨shared, settled, success⟩ := Report.result_bind_eq_ok.1 success
  cases success
  rw [Report.result_foldlM] at settled
  have packs : Packs p s.plan := by
    refine foldlM_ok_induction (fun _ s => Packs p s.plan) ?_ (.refl p) considered
    intro entry _ before after packs step
    exact packs.trans (Sharing.consider_ok step).1
  have covered : ∀ c ∈ packing.entries, ∀ m ∈ c.2, s.Covers m c.1 := by
    refine foldlM_ok_each (fun c s => ∀ m ∈ c.2, s.Covers m c.1) ?_ considered
    intro c before after step
    obtain ⟨_, keeps, covers⟩ := Sharing.consider_ok step
    exact ⟨covers, fun b done m consumer => keeps m b.1 (done m consumer)⟩
  have enriches : Enriches s.plan q := by
    refine foldlM_ok_induction (fun _ q => Enriches s.plan q) ?_ (.refl s.plan) settled
    intro entry _ before after enriches step
    exact enriches.trans (Sharing.settle_ok step).1
  have held : ∀ c ∈ s.provisional.entries, ∀ m ∈ c.1.1, ∀ x ∈ c.2, q.Holds m x := by
    refine foldlM_ok_each (fun c q => ∀ m ∈ c.1.1, ∀ x ∈ c.2, q.Holds m x) ?_ settled
    intro c before after step
    obtain ⟨settles, holds⟩ := Sharing.settle_ok step
    exact ⟨holds, fun b done m listed x has => settles.holds m x (done m listed x has)⟩
  refine ⟨packs.enriches.trans enriches, ?_⟩
  intro x m consumer
  obtain ⟨roots, found, member⟩ := KeyMap.mem_setAt_iff.1 consumer
  have listed := KeyMap.get?_eq_some_iff.1 found
  rcases covered _ listed m member with packed | ⟨candidates, fileType, shares, waiting⟩
  · exact enriches.holds m x (.inl packed)
  · obtain ⟨assets, set, has⟩ := KeyMap.mem_setAt_iff.1 waiting
    exact held _ (KeyMap.get?_eq_some_iff.1 set) m shares x has

/-- The plan takes over the bundles of the extraction. -/
theorem extractManualBundles_ok {i : Index} {config : Config} {extracted : Plan} {e : Extraction}
    {packing : KeyMap AssetKey (KeySet AssetKey)}
    (moves : (p.extractManualBundles i config packing).result = .ok (extracted, e)) :
    p.extraction i config packing = .ok e ∧ extracted = { p with manualBundles := e.bundles } := by
  unfold extractManualBundles at moves
  obtain ⟨_, extraction, moves⟩ := Report.result_bind_eq_ok.1 moves
  cases moves
  exact ⟨extraction, rfl⟩

/-- Every root that has to package an asset holds it once assets have been moved into manual bundles
and the rest has been placed. -/
theorem holds_of_consumer {i : Index} {config : Config} {extracted placed : Plan} {e : Extraction}
    {packing : KeyMap AssetKey (KeySet AssetKey)}
    (moves : (p.extractManualBundles i config packing).result = .ok (extracted, e))
    (places : (extracted.shareAssets i config e.claimed e.consumers).result = .ok placed) :
    SameShape p placed ∧ ∀ x, ∀ m ∈ packing.setAt x, placed.Holds m x := by
  obtain ⟨extraction, rfl⟩ := extractManualBundles_ok moves
  obtain ⟨enriches, held⟩ := shareAssets_ok places
  have shape : SameShape p { p with manualBundles := e.bundles } := ⟨rfl, rfl, rfl, rfl⟩
  refine ⟨shape.trans enriches.toSameShape, ?_⟩
  intro x m consumer
  rcases Extraction.covers_extraction extraction consumer with waiting | manual
  · exact held x m waiting
  · exact enriches.holds m x (.inr (.inr manual))

end Plan

end CodeSplit
