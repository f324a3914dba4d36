import CodeSplit.Proofs.BuildOutcomes
import CodeSplit.Proofs.ManualPrecedence
import CodeSplit.Proofs.SharedPartition

/-!
Single-file output. A root with such an output follows every dependency, relies on nothing that was
loaded before, lets no asset go and loads no other bundle, and limiting does not change what it
packages: one bundle has all that its asset leads to. Where all entries are of this kind, nothing
else is planned as long as no dependency of theirs starts a bundle; an asset of another environment
that a single file takes in can declare one that does.
-/
namespace CodeSplit

open Relation (ReflTransGen)

theorem Root.isEntryLike_of_isSingleFile {r : Root} (single : r.isSingleFile = true) :
    r.isEntryLike = true := by
  simp [Root.isEntryLike, single]

theorem Root.isExtractable_of_isSingleFile {r : Root} (single : r.isSingleFile = true) :
    r.isExtractable = false :=
  Root.isExtractable_eq_false_iff.2 (.inl single)

namespace Index

variable {i : Index} {entries : List Entry} {roots : KeyMap AssetKey Root} {k x : AssetKey}
  {root : Root}

/-- The walk for a single file enters whatever it meets. -/
theorem exists_enter_of_singleFile (single : root.isSingleFile = true) {asset : AssetKey}
    {step : Step} (taken : step ∈ i.stepsOf roots k root asset) :
    ∃ target, step = .enter target := by
  obtain ⟨link, _, target, _, rfl⟩ := mem_stepsOf.1 taken
  exact ⟨target, if_pos single⟩

theorem mem_reachedBy_of_singleFile (known : roots.get? k = some root)
    (single : root.isSingleFile = true) :
    x ∈ (i.reach roots).reachedBy k ↔ ReflTransGen i.Resolves k x := by
  rw [mem_reachedBy]
  constructor
  · rintro ⟨other, isRoot, walked⟩
    exact ReflTransGen.mono (fun _ _ enters => enters.resolves) _ _ walked
  · intro path
    refine ⟨root, known, ?_⟩
    exact ReflTransGen.mono (fun _ _ resolves => enters_of_singleFile single resolves) _ _ path

theorem not_reuses_of_singleFile (known : roots.get? k = some root)
    (single : root.isSingleFile = true) (other : AssetKey) : (k, other) ∉ i.reusedRoots roots := by
  intro reuses
  obtain ⟨r, isRoot, asset, _, reuse⟩ := mem_reusedRoots.1 reuses
  cases known.symm.trans isRoot
  obtain ⟨target, enters⟩ := exists_enter_of_singleFile single reuse
  cases enters

/-- A root with a single file packages all that its asset leads to. -/
theorem mem_packing_of_singleFile {target : Target} {walked : Plan} {reach : Reach}
    {packing : KeyMap AssetKey (KeySet AssetKey)}
    (walks : (i.walkedPlan target entries).result = .ok (walked, reach))
    (consumed : (walked.consumers i reach).result = .ok packing)
    (known : (i.roots entries).get? k = some root) (single : root.isSingleFile = true) :
    k ∈ packing.setAt x ↔ ReflTransGen i.Resolves k x := by
  obtain ⟨rfl, rfl⟩ := walkedPlan_ok walks
  obtain ⟨_, available, _, _, packs⟩ := Plan.isPacking_of_consumers consumed
  rw [packs x k, mem_reachedBy_of_singleFile known single]
  refine and_iff_left (.inl ?_)
  rintro ⟨_, other, isRoot, relied⟩
  cases known.symm.trans isRoot
  obtain ⟨_, several, _⟩ := Plan.mem_rootAvailability.1 relied
  rw [single] at several
  cases several

end Index

namespace Plan

variable {p q r : Plan} {i : Index} {config : Config} {group k x : AssetKey}

/-- The root loads no bundles but its own. -/
structure Solitary (p : Plan) (k : AssetKey) : Prop where
  shared : ∀ b ∈ p.sharedBundles, k ∉ b.consumers
  manual : ∀ key b, p.manualBundles.get? key = some b → k ∉ b.consumers
  reused : ∀ other, ¬p.Reuses k other

/-- In the second plan the root still loads no bundles but its own, and packages what it did. -/
structure Spares (k : AssetKey) (p q : Plan) : Prop where
  solitary : q.Solitary k
  buckets : ∀ fileType, q.bucket k fileType = p.bucket k fileType

theorem Spares.trans (first : Spares k p q) (second : Spares k q r) : Spares k p r :=
  ⟨second.solitary, fun fileType => (second.buckets fileType).trans (first.buckets fileType)⟩

theorem bucket_congr (same : q.placements = p.placements) (fileType : FileType) :
    q.bucket k fileType = p.bucket k fileType := by
  unfold bucket buckets
  rw [same]

/-- Packing assets into other roots. -/
theorem bucket_foldl_of_ne {α : Type} {owner : α → AssetKey} {type : α → FileType}
    {assets : α → List AssetKey} {as : List α} (others : ∀ a ∈ as, owner a ≠ k)
    (fileType : FileType) :
    (as.foldl (fun p a => p.packAll (owner a) (type a) (assets a)) p).bucket k fileType =
      p.bucket k fileType := by
  apply KeySet.ext
  intro x
  rw [mem_bucket_foldl]
  constructor
  · rintro (⟨a, listed, same, _⟩ | old)
    · exact absurd same (others a listed)
    · exact old
  · exact .inr

theorem Solitary.fill (solitary : p.Solitary k) {α : Type} {owner : α → AssetKey}
    {type : α → FileType} {assets : α → List AssetKey} {as : List α}
    (others : ∀ a ∈ as, owner a ≠ k) :
    Spares k p (as.foldl (fun p a => p.packAll (owner a) (type a) (assets a)) p) := by
  have packs : Packs p (as.foldl (fun p a => p.packAll (owner a) (type a) (assets a)) p) :=
    .foldl (fun p a => packs_packAll p (owner a) (type a) (assets a)) as p
  refine ⟨⟨?_, ?_, ?_⟩, bucket_foldl_of_ne others⟩
  · rw [packs.sharedBundles]
    exact solitary.shared
  · rw [packs.manualBundles]
    exact solitary.manual
  · unfold Reuses
    rw [packs.reused]
    exact solitary.reused

section Removing

theorem Solitary.removeShared (solitary : p.Solitary k) {place : Nat} {b : SharedBundle}
    (found : p.sharedBundles[place]? = some b) {consumers : KeySet AssetKey}
    (some : ∀ c ∈ consumers, c ∈ b.consumers) : Spares k p (p.removeShared place consumers) := by
  have loads : k ∉ b.consumers := solitary.shared b (List.mem_of_getElem? found)
  have packed : Spares k p
      (consumers.toList.foldl (fun p c => p.packAll c b.fileType b.assets.toList) p) := by
    refine solitary.fill ?_
    rintro c taken rfl
    exact loads (some c taken)
  unfold Plan.removeShared
  rw [found]
  refine ⟨⟨?_, packed.solitary.manual, packed.solitary.reused⟩, packed.buckets⟩
  intro other listed
  rcases List.mem_or_eq_of_mem_set listed with old | rfl
  · exact solitary.shared other old
  · exact fun consumer => loads (KeySet.mem_diff.1 consumer).1

theorem Solitary.prune (solitary : p.Solitary k) (success : (p.prune i).result = .ok q) :
    Spares k p q := by
  unfold Plan.prune at success
  simp only [Report.result_foldlM] at success
  have start : Spares k p { p with sharedBundles := retired p.sharedBundles } := by
    refine ⟨⟨?_, solitary.manual, solitary.reused⟩, fun _ => rfl⟩
    intro b listed
    obtain ⟨old, kept, rfl⟩ := List.mem_map.1 listed
    split
    · exact solitary.shared old kept
    · exact solitary.shared old kept
  refine (foldlM_ok_induction (fun rest q => (∀ b ∈ rest, b ∈ p.sharedBundles) ∧ Spares k p q)
    ?_ ⟨fun b listed => List.mem_of_mem_filter listed, start⟩ success).2
  rintro b rest before after ⟨listed, current⟩ step
  obtain rfl := dissolve_eq step
  refine ⟨fun c later => listed c (List.mem_cons_of_mem _ later), current.trans ?_⟩
  refine current.solitary.fill ?_
  rintro c consumer rfl
  exact solitary.shared b (listed b List.mem_cons_self) consumer

variable {reused reuser : AssetKey} {buckets : Buckets} {nested : List AssetKey}
  {outgoing : List BundleEdge}

theorem Solitary.rewired (solitary : p.Solitary k) (other : reuser ≠ k) :
    Spares k p (p.rewired reused buckets nested outgoing reuser) := by
  refine ⟨⟨?_, ?_, ?_⟩, ?_⟩
  · rw [(rewires_rewired p reused buckets nested outgoing reuser).sharedBundles]
    exact solitary.shared
  · intro key b found
    change (p.manualBundles.map _).get? key = some b at found
    rw [KeyMap.get?_map] at found
    obtain ⟨old, known, rfl⟩ := Option.map_eq_some_iff.1 found
    have before := solitary.manual key old known
    split
    · intro consumer
      rcases KeySet.mem_insert.1 consumer with rfl | joined
      · exact other rfl
      · exact before joined
    · exact before
  · intro target pair
    rcases mem_pairs_copyReused.1 pair with ⟨old, _⟩ | ⟨rfl, _⟩
    · exact solitary.reused target old
    · exact other rfl
  · intro fileType
    rw [bucket_congr (placements_rewired p reused buckets nested outgoing reuser)]
    exact bucket_foldl_of_ne (fun _ _ => other) fileType

theorem Solitary.copyReused (solitary : p.Solitary k) (other : reuser ≠ k) :
    Spares k p (p.copyReused reused buckets nested outgoing reuser) := by
  have rewired : Spares k p (p.rewired reused buckets nested outgoing reuser) :=
    solitary.rewired other
  rw [copyReused_eq]
  split
  · exact rewired.trans (rewired.solitary.fill fun _ _ => other)
  · refine ⟨⟨?_, rewired.solitary.manual, rewired.solitary.reused⟩, rewired.buckets⟩
    intro b listed
    obtain ⟨old, kept, rfl⟩ := List.mem_map.1 listed
    split
    · intro consumer
      rcases KeySet.mem_insert.1 consumer with rfl | before
      · exact other rfl
      · exact solitary.shared old kept before
    · exact solitary.shared old kept

theorem Solitary.removeReused (solitary : p.Solitary k) {reusers : KeySet AssetKey}
    (others : ∀ reuser ∈ reusers, reuser ≠ k) :
    Spares k p (p.removeReused reused reusers).withGroups := by
  have copied : Spares k p (p.removeReused reused reusers) := by
    refine removeReused_induction (fun q => Spares k p q) ⟨solitary, fun _ => rfl⟩ ?_
    intro q current reuser listed
    exact current.trans (current.solitary.copyReused (others reuser listed))
  exact ⟨⟨copied.solitary.shared, copied.solitary.manual, copied.solitary.reused⟩, copied.buckets⟩

/-- No removal concerns a root that loads no bundles but its own. -/
theorem Removes.spares (removes : p.Removes i group q) (solitary : p.Solitary k) :
    Spares k p q := by
  rcases removes.cases with ⟨place, b, found, _, pruned⟩ | ⟨reused, reusers, _, same, pruned⟩
  · have removed : Spares k p (p.removeShared place (b.consumers.inter (p.members group))) :=
      solitary.removeShared found fun c taken => (KeySet.mem_inter.1 taken).1
    exact removed.trans (removed.solitary.prune pruned)
  · have removed : Spares k p (p.removeReused reused reusers).withGroups := by
      refine solitary.removeReused ?_
      rintro reuser taker rfl
      exact solitary.reused reused ((same reuser).1 taker).2
    exact removed.trans (removed.solitary.prune pruned)

theorem Solitary.limitRequests (solitary : p.Solitary k)
    (success : (p.limitRequests i config).result = .ok q) : Spares k p q := by
  obtain ⟨_, run⟩ := removesIn_of_limitRequests success
  refine run.keeps (motive := fun q => Spares k p q) ?_ ⟨solitary, fun _ => rfl⟩
  intro before group after current removes
  exact current.trans (removes.spares current.solitary)

/-- Without shared bundles and reuse there is nothing to remove. -/
theorem limitRequests_eq_self (shared : p.sharedBundles = []) (reused : p.reused = ∅)
    (success : (p.limitRequests i config).result = .ok q) : q = p := by
  obtain ⟨_, run⟩ := removesIn_of_limitRequests success
  cases run with
  | none => rfl
  | some removes _ =>
    rcases removes.cases with ⟨place, b, found, _⟩ | ⟨_, _, can, _⟩
    · rw [shared] at found
      cases found
    · obtain ⟨reuser, _, reuses⟩ := can.reusedBySome
      unfold Reuses at reuses
      rw [reused] at reuses
      exact absurd reuses (KeySet.not_mem_empty _)

end Removing

end Plan

/-! Placing assets for a root that keeps what it needs and loads no shared bundle. -/

namespace Extraction

variable {p : Plan} {i : Index} {config : Config} {packing : KeyMap AssetKey (KeySet AssetKey)}
  {e : Extraction} {k x : AssetKey}

theorem not_mem_extractableConsumers (kept : ∀ r, p.root? k = some r → r.isExtractable = false)
    (roots : KeySet AssetKey) : k ∉ p.extractableConsumers roots := by
  intro listed
  obtain ⟨_, lets⟩ := KeySet.mem_filter.1 listed
  obtain ⟨r, known, extractable⟩ := (Option.any_eq_true _ _).1 lets
  rw [kept r known] at extractable
  cases extractable

/-- A root that lets nothing go waits for what it waited for. -/
theorem Follows.mem_setAt_iff {chosen : AssetKey → Option ManualKey}
    (follows : e.Follows p packing chosen)
    (kept : ∀ r, p.root? k = some r → r.isExtractable = false) :
    k ∈ e.consumers.setAt x ↔ k ∈ packing.setAt x := by
  unfold KeyMap.setAt
  rw [follows.left x]
  cases packing.get? x with
  | none => rfl
  | some roots =>
    rw [Option.map_some, Option.getD_some, Option.getD_some]
    split
    · rw [KeySet.mem_diff]
      exact and_iff_left (not_mem_extractableConsumers kept roots)
    · rfl

theorem Follows.not_consumer {chosen : AssetKey → Option ManualKey}
    (follows : e.Follows p packing chosen)
    (kept : ∀ r, p.root? k = some r → r.isExtractable = false) {key : ManualKey} {b : ManualBundle}
    (found : e.bundles.get? key = some b) : k ∉ b.consumers := by
  rw [← bundleAt_of_get? found, follows.consumers]
  rintro ⟨x, _, moved⟩
  exact not_mem_extractableConsumers kept _ moved

/-- Where no root lets assets go, nothing is moved, and no rule has to make partitions. -/
theorem extraction_of_kept (kept : ∀ k r, p.root? k = some r → r.isExtractable = false)
    (known : ∀ x roots, packing.get? x = some roots → i.Known x) :
    p.extraction i config packing = .ok { bundles := p.manualBundles, consumers := packing } := by
  let start : Extraction := { bundles := p.manualBundles, consumers := packing }
  obtain ⟨e, extraction, rfl⟩ : ∃ e, p.extraction i config packing = .ok e ∧ e = start := by
    refine exists_foldlM_ok_keeping (fun e => e = start) ?_ rfl
    rintro _ rfl rule _
    refine exists_foldlM_ok_keeping (fun e => e = start) ?_ rfl
    rintro _ rfl ⟨x, roots⟩ listed
    refine ⟨_, ?_, rfl⟩
    obtain ⟨asset, isAsset⟩ := known x roots (KeyMap.get?_eq_some_iff.2 listed)
    have none : (p.extractableConsumers roots).isEmpty = true :=
      KeySet.isEmpty_iff.2 fun k => not_mem_extractableConsumers (kept k) roots
    unfold Plan.moveMatching
    simp only [isAsset, none, bind, Except.bind, if_false, Bool.not_true,
      Bool.and_false, Bool.false_eq_true]
    rfl
  exact extraction

end Extraction

namespace Plan

variable {p q : Plan} {i : Index} {config : Config} {claimed : KeySet AssetKey}
  {packing : KeyMap AssetKey (KeySet AssetKey)} {k x : AssetKey}

/-- What a root packages that loads no shared bundle and has one type, once assets are placed. -/
theorem mem_bucket_shareAssets {fileType : FileType} (direct : p.packagesDirectly k = true)
    (one : ∀ type, p.bucketType k type = fileType) (shared : p.sharedBundles = [])
    (empty : p.placements = ∅)
    (success : (p.shareAssets i config claimed packing).result = .ok q) :
    (∀ b ∈ q.sharedBundles, k ∉ b.consumers) ∧ ∀ type x, x ∈ q.bucket k type ↔
      type = fileType ∧ k ∈ packing.setAt x := by
  have partitioned := partitioned_of_shareAssets empty shared success
  have loadsNone (x : AssetKey) : k ∉ p.sharers packing x := by
    rw [mem_sharers, ← loadsShared_iff, direct]
    exact fun loads => Bool.noConfusion loads.2
  constructor
  · intro b listed
    obtain ⟨x, member⟩ := partitioned.nonempty b listed
    rw [(partitioned.shared b listed x member).2]
    exact loadsNone x
  · intro type x
    rw [partitioned.packed]
    constructor
    · rintro ⟨needs, ⟨asset, _, same⟩, _⟩
      rw [one] at same
      exact ⟨same.symm, needs⟩
    · rintro ⟨rfl, needs⟩
      obtain ⟨asset, isAsset⟩ := partitioned.known x k needs
      exact ⟨needs, ⟨asset, Index.asset_eq_ok_iff.1 isAsset, one _⟩,
        fun shares => loadsNone x shares.2⟩

/-- Where no root loads shared bundles, none are made. -/
theorem sharedBundles_shareAssets (direct : ∀ k, p.packagesDirectly k = true)
    (success : (p.shareAssets i config claimed packing).result = .ok q) :
    q.sharedBundles = p.sharedBundles := by
  unfold shareAssets at success
  obtain ⟨s, considered, success⟩ := Report.result_bind_eq_ok.1 success
  obtain ⟨_, settled, success⟩ := Report.result_bind_eq_ok.1 success
  cases success
  obtain ⟨packs, none⟩ : Packs p s.plan ∧ s.provisional = ∅ := by
    refine foldlM_ok_induction (fun _ s => Packs p s.plan ∧ s.provisional = ∅) ?_ ⟨.refl p, rfl⟩
      considered
    rintro entry rest before after ⟨packs, none⟩ step
    have takesAll (m : AssetKey) : before.plan.packagesDirectly m = true := by
      have inStart := direct m
      unfold packagesDirectly root? at inStart ⊢
      rwa [packs.roots]
    obtain ⟨asset, candidates, _, rfl, ⟨shareable, _⟩ | ⟨_, rfl⟩⟩ := Sharing.consider_cases step
    · obtain ⟨_, _, _, _, enough⟩ := Sharing.isShareable_iff.1 shareable
      have several : 2 ≤ (entry.2.toList.filter fun r =>
          !before.plan.packagesDirectly r).length :=
        Nat.le_trans (Nat.le_max_right _ _) enough
      simp [takesAll] at several
    · exact ⟨packs.trans (packs_packInto _ _ _ _), none⟩
  rw [none] at settled
  cases settled
  exact packs.sharedBundles

end Plan

namespace Index

variable {i : Index} {config : Config} {entries : List Entry} {placed p : Plan} {k x : AssetKey}
  {root : Root}

theorem bucketType_of_singleFile (known : p.root? k = some root)
    (single : root.isSingleFile = true) (type : FileType) :
    p.bucketType k type = root.fileType := by
  unfold Plan.bucketType
  rw [known]
  simp only [single, if_true]

/-- When all assets have been placed, a root with a single file loads no bundles but its own, and
packages all that its asset leads to. -/
theorem Places.solitary (places : i.Places config entries placed)
    (known : (i.roots entries).get? k = some root) (single : root.isSingleFile = true) :
    placed.Solitary k ∧ ∀ type x, x ∈ placed.bucket k type ↔
      type = root.fileType ∧ ReflTransGen i.Resolves k x := by
  obtain ⟨target, walked, reach, packing, extracted, e, walks, consumed, moved, shared⟩ :=
    places.passes
  have packs (x : AssetKey) : k ∈ packing.setAt x ↔ ReflTransGen i.Resolves k x :=
    mem_packing_of_singleFile walks consumed known single
  obtain ⟨shape, _⟩ := Plan.holds_of_consumer moved shared
  obtain ⟨made, _⟩ := walkedPlan_ok walks
  obtain ⟨extraction, rfl⟩ := Plan.extractManualBundles_ok moved
  have isRoot : walked.root? k = some root := by rwa [made]
  have kept : ∀ r, walked.root? k = some r → r.isExtractable = false := by
    intro r found
    cases isRoot.symm.trans found
    exact Root.isExtractable_of_isSingleFile single
  have direct : walked.packagesDirectly k = true := by
    unfold Plan.packagesDirectly
    rw [isRoot]
    exact Root.isEntryLike_of_isSingleFile single
  have follows : e.Follows walked packing _ :=
    Extraction.follows_extraction (by rw [made]; rfl) extraction
  obtain ⟨loadsNone, buckets⟩ := Plan.mem_bucket_shareAssets (k := k)
    (p := { walked with manualBundles := e.bundles }) direct
    (bucketType_of_singleFile isRoot single) (by rw [made]; rfl) (by rw [made]; rfl) shared
  refine ⟨⟨loadsNone, ?_, ?_⟩, ?_⟩
  · rw [Plan.manualBundles_shareAssets shared]
    exact fun key b found => follows.not_consumer kept found
  · intro other
    unfold Plan.Reuses
    rw [shape.reused, made]
    exact not_reuses_of_singleFile known single other
  · intro type x
    rw [buckets, follows.mem_setAt_iff kept, packs]

/-- Whatever else is planned, a root with a single file packages all that its asset leads to, as its
own type. -/
theorem mem_bucket_of_singleFile (success : (i.planTarget config entries).result = .ok p)
    (known : p.root? k = some root) (single : root.isSingleFile = true) (type : FileType) :
    x ∈ p.bucket k type ↔ type = root.fileType ∧ ReflTransGen i.Resolves k x := by
  unfold Plan.root? at known
  rw [roots_of_planTarget success] at known
  obtain ⟨placed, places, limited⟩ := places_of_planTarget success
  obtain ⟨solitary, buckets⟩ := places.solitary known single
  rw [(solitary.limitRequests limited).buckets, buckets]

section AllSingle

theorem bundleEdges_eq_nil {roots : KeyMap AssetKey Root}
    (singles : ∀ k root, roots.get? k = some root → root.isSingleFile = true) :
    i.bundleEdges roots = [] := by
  rw [List.eq_nil_iff_forall_not_mem]
  intro e listed
  obtain ⟨key, root, known, asset, _, crossing⟩ := mem_bundleEdges.1 listed
  obtain ⟨_, enters⟩ := exists_enter_of_singleFile (singles key root known) crossing
  cases enters

theorem reusedRoots_eq_empty {roots : KeyMap AssetKey Root}
    (singles : ∀ k root, roots.get? k = some root → root.isSingleFile = true) :
    i.reusedRoots roots = ∅ := by
  apply KeySet.ext
  rintro ⟨reuser, reused⟩
  refine iff_of_false ?_ (KeySet.not_mem_empty _)
  intro pair
  obtain ⟨root, known, _⟩ := mem_reusedRoots.1 pair
  exact not_reuses_of_singleFile known (singles reuser root known) reused pair

/-- If every root has a single file, then all assets can be placed, whatever the configuration, and
no root has anything to do with another. -/
theorem Covers.exists_places_of_singleFiles (covers : i.Covers entries)
    (singles : ∀ k root, (i.roots entries).get? k = some root → root.isSingleFile = true)
    (config : Config) (target : Target) :
    ∃ placed, (i.placedPlan config target entries).result = .ok placed ∧
      placed.edges = [] ∧ placed.reused = ∅ ∧ placed.sharedBundles = [] ∧
        placed.manualBundles = ∅ := by
  obtain ⟨walked, reach, walks⟩ := covers.exists_walkedPlan target
  obtain ⟨graph, built⟩ := exists_groupGraph covers.resolved walks
  have isKnown : ∀ k root, (i.roots entries).get? k = some root → i.Known k :=
    fun _ _ found => .of_root found
  have start := within_of_walkedPlan walks isKnown
  obtain ⟨packing, consumed⟩ := Plan.exists_consumers built start.roots
  have waits : Waits i.Known i.Known packing := by
    intro x s found
    obtain ⟨⟨m, reached⟩, consumers⟩ := waits_of_consumers walks consumed isKnown x s found
    exact ⟨covers.known (.of_reachedBy reached), consumers⟩
  obtain ⟨made, _⟩ := walkedPlan_ok walks
  have roots : ∀ k root, walked.root? k = some root → root.isSingleFile = true := by
    rw [made]
    exact singles
  have direct (k : AssetKey) : walked.packagesDirectly k = true := by
    unfold Plan.packagesDirectly
    rw [Option.all_eq_true]
    exact fun r isRoot => Root.isEntryLike_of_isSingleFile (roots k r isRoot)
  have extraction : walked.extraction i config packing = .ok ⟨walked.manualBundles, packing, ∅⟩ :=
    Extraction.extraction_of_kept
      (fun k r isRoot => Root.isExtractable_of_isSingleFile (roots k r isRoot))
      fun x roots found => (waits x roots found).1
  have moved : (walked.extractManualBundles i config packing).result =
      .ok (walked, ⟨walked.manualBundles, packing, ∅⟩) :=
    Report.result_bind_eq_ok.2 ⟨_, extraction, rfl⟩
  obtain ⟨placed, shared⟩ := Plan.exists_shareAssets walked config ∅ waits
  obtain ⟨enriches, _⟩ := Plan.shareAssets_ok shared
  refine ⟨placed, ?_, ?_, ?_, ?_, ?_⟩
  · exact Report.result_bind_eq_ok.2 ⟨_, walks, Report.result_bind_eq_ok.2 ⟨_, consumed,
      Report.result_bind_eq_ok.2 ⟨_, moved, shared⟩⟩⟩
  · rw [enriches.edges, made]
    exact bundleEdges_eq_nil singles
  · rw [enriches.reused, made]
    exact reusedRoots_eq_empty singles
  · rw [Plan.sharedBundles_shareAssets direct shared, made]
    rfl
  · rw [Plan.manualBundles_shareAssets shared, made]
    rfl

end AllSingle

/-- Every dependency that starts a bundle, of an asset that the entries lead to, leads to the asset
of an entry. -/
def StartsOnlyEntries (i : Index) (entries : List Entry) : Prop :=
  ∀ source, i.Reachable entries source → ∀ link ∈ i.links source, ∀ target ∈ link.target,
    (i.triggersOf source link.dependency target).isEmpty = false →
      ∃ entry ∈ entries, entry.asset = target

/-- Dependencies that lead to entries only make no other root. -/
theorem StartsOnlyEntries.isEntry (starts : i.StartsOnlyEntries entries)
    (known : (i.roots entries).get? k = some root) : ∃ entry ∈ entries, entry.asset = k := by
  obtain ⟨created, _⟩ := get?_roots_eq_some_iff.1 known
  obtain ⟨c, listed, rfl⟩ := List.mem_map.1 created
  rcases List.mem_append.1 listed with listed | listed
  · obtain ⟨entry, member, rfl⟩ := List.mem_map.1 listed
    exact ⟨entry, member, rfl⟩
  · obtain ⟨b, member, rfl⟩ := List.mem_map.1 listed
    obtain ⟨reachable, link, isLink, resolved, isDependency, triggers, some⟩ :=
      mem_boundaries.1 member
    rw [triggers, isDependency] at some
    exact starts b.source (mem_reachable.1 reachable) link isLink b.target resolved some

/-- Where entries are the only roots, dependencies start bundles for entries only. -/
theorem startsOnlyEntries_of_roots (inside : i.ResolvesInside)
    (only : ∀ k root, (i.roots entries).get? k = some root → ∃ entry ∈ entries, entry.asset = k) :
    i.StartsOnlyEntries entries := by
  intro source reachable link member target resolved starts
  obtain ⟨root, known⟩ := exists_root_of_boundary inside reachable member resolved starts
  exact only target root known

end Index

/-- Exactly the assets of the entries are roots, they have nothing to do with each other, and each
has one bundle, of its own type, with all that its asset leads to. -/
structure Plan.OneFileEach (p : Plan) (i : Index) (entries : List Entry) : Prop where
  roots : ∀ k, (∃ root, p.root? k = some root) ↔ ∃ entry ∈ entries, entry.asset = k
  edges : p.edges = []
  reused : p.reused = ∅
  shared : p.sharedBundles = []
  manual : p.manualBundles = ∅
  buckets : ∀ k root, p.root? k = some root → ∀ fileType x, x ∈ p.bucket k fileType ↔
    fileType = root.fileType ∧ ReflTransGen i.Resolves k x

/-- If the entries of a target have single files and are the only roots, the plan of the target has
one file for each. -/
theorem Index.Covers.exists_oneFileEach {i : Index} {entries : List Entry}
    (covers : i.Covers entries) (entered : entries ≠ []) (config : Config)
    (singles : ∀ k root, (i.roots entries).get? k = some root → root.isSingleFile = true)
    (only : ∀ k root, (i.roots entries).get? k = some root → ∃ entry ∈ entries, entry.asset = k) :
    ∃ p, (i.planTarget config entries).result = .ok p ∧ p.OneFileEach i entries := by
  obtain ⟨first, isFirst⟩ := Option.isSome_iff_exists.1 (List.isSome_head?.2 entered)
  obtain ⟨placed, placing, edges, reused, shared, manual⟩ :=
    covers.exists_places_of_singleFiles singles config first.target
  have places : i.Places config entries placed := ⟨first.target, placing⟩
  have acyclic : ∀ a, ¬Relation.TransGen placed.Reuses a a := by
    intro a circle
    obtain ⟨b, reuses, _⟩ := Relation.TransGen.head'_iff.1 circle
    unfold Plan.Reuses at reuses
    rw [reused] at reuses
    exact absurd reuses (KeySet.not_mem_empty _)
  obtain ⟨limited, limits⟩ := Plan.exists_limitRequests places.within_known acyclic config
  obtain rfl := Plan.limitRequests_eq_self shared reused limits
  have success : (i.planTarget config entries).result = .ok limited :=
    (Index.planTarget_eq_limitRequests isFirst placing).trans limits
  have roots := Index.roots_of_planTarget success
  refine ⟨limited, success, ?_, edges, reused, shared, manual, ?_⟩
  · intro k
    unfold Plan.root?
    rw [roots]
    constructor
    · rintro ⟨root, known⟩
      exact only k root known
    · rintro ⟨entry, listed, rfl⟩
      obtain ⟨asset, isAsset⟩ := covers.entered entry listed
      exact Index.exists_root_of_entry listed isAsset
  · intro k root known fileType x
    refine Index.mem_bucket_of_singleFile success known (singles k root ?_) fileType
    rwa [← roots]

/-- Take any graph and configuration and a target whose entries all have an environment with
single-file output. The plan of the target is one file for each entry, with all that the entry leads
to and nothing beside it, exactly if each dependency that starts a bundle leads to an entry. In any
plan of the target each entry has all that it leads to in its one bundle. -/
theorem one_file_each_iff (g : AssetGraph) (config : Config)
    (byTarget : KeyMap String (List Entry)) (name : String) (entries : List Entry)
    (entered : (Index.ofGraph g).entriesByTarget g = .ok byTarget)
    (found : byTarget.get? name = some entries)
    (single : ∀ entry ∈ entries, ∀ asset, (Index.ofGraph g).asset? entry.asset = some asset →
      asset.env.singleFileOutput = true) :
    ((∃ p, ((Index.ofGraph g).planTarget config entries).result = .ok p ∧
        p.OneFileEach (Index.ofGraph g) entries) ↔ (Index.ofGraph g).StartsOnlyEntries entries) ∧
      ∀ p, ((Index.ofGraph g).planTarget config entries).result = .ok p → ∀ entry ∈ entries,
        ∃ root, p.root? entry.asset = some root ∧ ∀ fileType x, x ∈ p.bucket entry.asset fileType ↔
          fileType = root.fileType ∧ ReflTransGen (Index.ofGraph g).Resolves entry.asset x := by
  have covers : (Index.ofGraph g).Covers entries :=
    ⟨Index.resolvesInside_ofGraph, Index.entry_indexed entered found⟩
  have isSingle : ∀ entry ∈ entries, ∀ root,
      ((Index.ofGraph g).roots entries).get? entry.asset = some root →
        root.isSingleFile = true := by
    intro entry listed root known
    obtain ⟨_, asset, isAsset, rfl⟩ := Index.get?_roots_eq_some_iff.1 known
    exact single entry listed asset isAsset
  refine ⟨⟨?_, ?_⟩, ?_⟩
  · rintro ⟨p, success, each⟩
    refine Index.startsOnlyEntries_of_roots covers.resolved ?_
    rw [← Index.roots_of_planTarget success]
    exact fun k root known => (each.roots k).1 ⟨root, known⟩
  · intro starts
    have only : ∀ k root, ((Index.ofGraph g).roots entries).get? k = some root →
        ∃ entry ∈ entries, entry.asset = k := fun k root known => starts.isEntry known
    refine covers.exists_oneFileEach (Index.entries_ne_nil entered found) config ?_ only
    intro k root known
    obtain ⟨entry, listed, rfl⟩ := only k root known
    exact isSingle entry listed root known
  · intro p success entry listed
    obtain ⟨asset, isAsset⟩ := covers.entered entry listed
    obtain ⟨root, known⟩ := Index.exists_root_of_entry listed isAsset
    rw [← Index.roots_of_planTarget success] at isSingle known
    exact ⟨root, known, fun fileType x =>
      Index.mem_bucket_of_singleFile success known (isSingle entry listed root known) fileType⟩

/-- A widget and a page with single files. The page loads a part lazily, which is of another
environment, as are the helper of that part and the tool that the helper would load in parallel. -/
def embeddedParts (priority : Priority) : AssetGraph :=
  let dependency (id : String) (priority : Priority) : AssetGraph.Node :=
    .dependency { id, specifier := id, priority }
  let oneFile : Environment := { singleFileOutput := true }
  { nodes := [.root, .dependency { id := "to page", specifier := "page", isEntry := true },
      .asset { id := "page", env := oneFile },
      .dependency { id := "to widget", specifier := "widget", isEntry := true },
      .asset { id := "widget", env := oneFile }, dependency "page to part" .lazy,
      .asset { id := "part" }, dependency "part to helper" .sync, .asset { id := "helper" },
      dependency "helper to tool" priority, .asset { id := "tool" }]
    edges := [(0, 1), (1, 2), (0, 3), (3, 4), (2, 5), (5, 6), (6, 7), (7, 8), (8, 9), (9, 10)] }

def embeddedPartsEntries : List Entry :=
  [⟨{ id := "to page", specifier := "page", isEntry := true }, 1, {}⟩,
    ⟨{ id := "to widget", specifier := "widget", isEntry := true }, 4, {}⟩]

/-- A rule that has no partitions for the assets it names. -/
def embeddedPartsConfig : Config where
  manualRules := [{ name := "all", assets := ["/**"], split := 0 }]

/-- The helper needs its tool at once, so that nothing starts a bundle. -/
theorem embeddedParts_one_file_each :
    ∃ p, ((Index.ofGraph (embeddedParts .sync)).planTarget embeddedPartsConfig
        embeddedPartsEntries).result = .ok p ∧
      p.OneFileEach (Index.ofGraph (embeddedParts .sync)) embeddedPartsEntries := by
  have entered : (Index.ofGraph (embeddedParts .sync)).entriesByTarget (embeddedParts .sync) =
      .ok (.ofList [("default", embeddedPartsEntries)]) := by decide +kernel
  have single : ∀ entry ∈ embeddedPartsEntries, ∀ asset ∈
      (Index.ofGraph (embeddedParts .sync)).asset? entry.asset,
        asset.env.singleFileOutput = true := by decide +kernel
  have starts : ∀ source ∈ (Index.ofGraph (embeddedParts .sync)).reachable embeddedPartsEntries,
      ∀ link ∈ (Index.ofGraph (embeddedParts .sync)).links source, ∀ target ∈ link.target,
        ((Index.ofGraph (embeddedParts .sync)).triggersOf source link.dependency target).isEmpty =
          false → ∃ entry ∈ embeddedPartsEntries, entry.asset = target := by decide +kernel
  refine (one_file_each_iff (embeddedParts .sync) embeddedPartsConfig _ "default"
    embeddedPartsEntries entered (by decide +kernel) single).1.2 ?_
  intro source reachable
  exact starts source (Index.mem_reachable.2 reachable)

/-- The helper loads its tool in parallel: the tool is a root of its own, with a bundle that holds a
copy of what the file of the page has. -/
theorem embeddedParts_parallel_tool :
    (∀ entry ∈ embeddedPartsEntries, ∀ asset,
      (Index.ofGraph (embeddedParts .parallel)).asset? entry.asset = some asset →
        asset.env.singleFileOutput = true) ∧
    ∃ p, ((Index.ofGraph (embeddedParts .parallel)).planTarget {} embeddedPartsEntries).result =
        .ok p ∧ (p.root? 3).isSome ∧ 3 ∈ p.bucket 3 .js ∧ 3 ∈ p.bucket 1 .js ∧
      ¬p.OneFileEach (Index.ofGraph (embeddedParts .parallel)) embeddedPartsEntries := by
  have single : ∀ entry ∈ embeddedPartsEntries, ∀ asset ∈
      (Index.ofGraph (embeddedParts .parallel)).asset? entry.asset,
        asset.env.singleFileOutput = true := by decide +kernel
  have returns : ((Index.ofGraph (embeddedParts .parallel)).planTarget {}
      embeddedPartsEntries).result.map (fun p =>
        decide ((p.root? 3).isSome ∧ 3 ∈ p.bucket 3 .js ∧ 3 ∈ p.bucket 1 .js)) = .ok true := by
    decide +kernel
  obtain ⟨p, success, computed⟩ := map_eq_ok_iff.1 returns
  obtain ⟨isRoot, own, copy⟩ := of_decide_eq_true computed
  refine ⟨single, p, success, isRoot, own, copy, ?_⟩
  intro each
  have isEntry := (each.roots 3).1 (Option.isSome_iff_exists.1 isRoot)
  revert isEntry
  decide

end CodeSplit
