import CodeSplit.Proofs.PlanContents

/-!
Shared bundles from their making to the end. A shared bundle holds splittable assets of its type
that are neither roots nor in a manual bundle, no asset is in two of them, and the roots that load
it are not entry-like. Limiting changes who loads a shared bundle, and dissolves it as soon as fewer
than two roots do, but it never changes what is in it.
-/
namespace CodeSplit

/-- Counting a list without repetitions as a set. -/
theorem KeySet.size_ofList {α : Type} [KeyOrder α] {xs : List α} (distinct : xs.Nodup) :
    (KeySet.ofList xs).size = xs.length := by
  have perm : (KeySet.ofList xs).toList.Perm xs :=
    (List.perm_ext_iff_of_nodup (KeySet.nodup_toList _) distinct).2 fun _ => KeySet.mem_ofList
  exact perm.length_eq

/-- Two sets of assets without a common one. -/
def Apart (left right : KeySet AssetKey) : Prop := ∀ x ∈ left, x ∉ right

theorem Apart.symm {left right : KeySet AssetKey} (apart : Apart left right) : Apart right left :=
  fun x onRight onLeft => apart x onLeft onRight

namespace Extraction

variable {p : Plan} {i : Index} {config : Config} {e : Extraction}
  {packing : KeyMap AssetKey (KeySet AssetKey)}

/-- Whatever is in a manual bundle was claimed and is no root, if this is true at the start. -/
theorem claimed_of_extraction (none : ∀ key b, p.manualBundles.get? key = some b → False)
    (success : p.extraction i config packing = .ok e) {key : ManualKey} {b : ManualBundle}
    (found : e.bundles.get? key = some b) {x : AssetKey} (has : x ∈ b.assets) :
    x ∈ e.claimed ∧ p.root? x = Option.none := by
  refine extraction_induction (fun e => ∀ key b, e.bundles.get? key = some b → ∀ x ∈ b.assets,
    x ∈ e.claimed ∧ p.root? x = Option.none) ?_ (fun key b found => (none key b found).elim) success
    key b found x has
  intro e rule moved asset consumers partition claimed moves key b found x has
  simp only [Extraction.move, KeyMap.get?_update] at found ⊢
  rw [KeySet.mem_insert]
  split at found
  · rename_i same
    cases found
    rcases KeySet.mem_insert.1 has with rfl | old
    · refine ⟨.inl rfl, ?_⟩
      have named := moves.named
      simp only [Plan.isNamedBy, KeyMap.contains, Bool.and_eq_true, Bool.not_eq_true',
        Option.isSome_eq_false_iff, Option.isNone_iff_eq_none] at named
      exact named.1.1.1
    · cases before : e.bundles.get? ⟨rule.name, asset.fileType, partition, rule.split⟩ with
      | none =>
        rw [before] at old
        exact absurd old (KeySet.not_mem_empty x)
      | some b =>
        rw [before] at old
        obtain ⟨claimed, notRoot⟩ := claimed _ b before x old
        exact ⟨.inr claimed, notRoot⟩
  · obtain ⟨claimed, notRoot⟩ := claimed key b found x has
    exact ⟨.inr claimed, notRoot⟩

end Extraction

namespace Plan

variable {p q r : Plan} {i : Index} {config : Config} {group : AssetKey}

/-- The root loads shared bundles. -/
def LoadsShared (p : Plan) (root : AssetKey) : Prop :=
  ∃ r, p.root? root = some r ∧ r.isEntryLike = false

theorem loadsShared_iff {root : AssetKey} :
    p.packagesDirectly root = false ↔ p.LoadsShared root := by
  unfold packagesDirectly LoadsShared
  cases p.root? root with
  | none => simp
  | some r => simp

/-- What a shared bundle of a type may hold. -/
structure Shareable (p : Plan) (i : Index) (fileType : FileType) (x : AssetKey) : Prop where
  notRoot : p.root? x = none
  notManual : ∀ key b, p.manualBundles.get? key = some b → x ∉ b.assets
  asset : ∃ asset, i.asset x = .ok asset ∧ asset.isSplittable = true ∧ asset.fileType = fileType

/-- What is true of a shared bundle whoever loads it, the number of those apart. -/
structure FitToShare (p : Plan) (i : Index) (config : Config) (b : SharedBundle) : Prop where
  consumers : ∀ c ∈ b.consumers, p.LoadsShared c
  nonempty : ∃ x, x ∈ b.assets
  assets : ∀ x ∈ b.assets, p.Shareable i b.fileType x
  size : i.totalSize b.assets = .ok b.size
  large : config.minBundleSize ≤ b.size

/-- All shared bundles are fit, and no asset is in two of them. -/
structure SharesWell (p : Plan) (i : Index) (config : Config) : Prop where
  fit : ∀ b ∈ p.sharedBundles, p.FitToShare i config b
  apart : (p.sharedBundles.map SharedBundle.assets).Pairwise Apart

/-- Every shared bundle that is alive is loaded by two roots at least. -/
def Several (p : Plan) : Prop := ∀ b ∈ p.liveSharedBundles, 2 ≤ b.consumers.size

/-- The later bundle has the contents of the earlier one, and only roots that load shared bundles
have joined it. -/
structure Continues (p : Plan) (old new : SharedBundle) : Prop where
  fileType : new.fileType = old.fileType
  assets : new.assets = old.assets
  size : new.size = old.size
  consumers : ∀ c ∈ new.consumers, c ∈ old.consumers ∨ p.LoadsShared c

/-- The second plan has the bundles of the first, as far as what they hold is concerned. -/
structure Carries (p q : Plan) : Prop where
  roots : q.roots = p.roots
  manual : ∀ key b, q.manualBundles.get? key = some b →
    ∃ old, p.manualBundles.get? key = some old ∧ b.assets = old.assets
  assets : q.sharedBundles.map SharedBundle.assets = p.sharedBundles.map SharedBundle.assets
  shared : ∀ b ∈ q.sharedBundles, ∃ old ∈ p.sharedBundles, p.Continues old b

theorem Continues.refl (b : SharedBundle) : p.Continues b b := ⟨rfl, rfl, rfl, fun _ => .inl⟩

theorem loadsShared_congr (same : q.roots = p.roots) {root : AssetKey} :
    q.LoadsShared root ↔ p.LoadsShared root := by
  unfold LoadsShared root?
  rw [same]

theorem Carries.trans (first : Carries p q) (second : Carries q r) : Carries p r := by
  refine ⟨second.roots.trans first.roots, ?_, second.assets.trans first.assets, ?_⟩
  · intro key b found
    obtain ⟨middle, found, same⟩ := second.manual key b found
    obtain ⟨old, found, sameToo⟩ := first.manual key middle found
    exact ⟨old, found, same.trans sameToo⟩
  · intro b listed
    obtain ⟨middle, listed, later⟩ := second.shared b listed
    obtain ⟨old, listed, earlier⟩ := first.shared middle listed
    refine ⟨old, listed, later.fileType.trans earlier.fileType, later.assets.trans earlier.assets,
      later.size.trans earlier.size, ?_⟩
    intro c consumer
    rcases later.consumers c consumer with before | joins
    · exact earlier.consumers c before
    · exact .inr ((loadsShared_congr first.roots).1 joins)

/-- Plans with the same roots, manual and shared bundles. -/
theorem Carries.of_eq (roots : q.roots = p.roots) (manual : q.manualBundles = p.manualBundles)
    (shared : q.sharedBundles = p.sharedBundles) : Carries p q := by
  refine ⟨roots, ?_, by rw [shared], ?_⟩
  · rw [manual]
    exact fun key b found => ⟨b, found, rfl⟩
  · rw [shared]
    exact fun b listed => ⟨b, listed, .refl b⟩

theorem Carries.of_packs (packs : Packs p q) : Carries p q :=
  .of_eq packs.roots packs.manualBundles packs.sharedBundles

/-- Each shared bundle is changed on its own. -/
theorem Carries.of_map {change : SharedBundle → SharedBundle} (roots : q.roots = p.roots)
    (manual : ∀ key b, q.manualBundles.get? key = some b →
      ∃ old, p.manualBundles.get? key = some old ∧ b.assets = old.assets)
    (shared : q.sharedBundles = p.sharedBundles.map change)
    (each : ∀ b, p.Continues b (change b)) : Carries p q := by
  refine ⟨roots, manual, ?_, ?_⟩
  · rw [shared, List.map_map]
    exact List.map_congr_left fun b _ => (each b).assets
  · rw [shared]
    intro b listed
    obtain ⟨old, kept, rfl⟩ := List.mem_map.1 listed
    exact ⟨old, kept, each old⟩

/-- A bundle that is carried on stays fit. -/
theorem FitToShare.of_continues {old b : SharedBundle} (fit : p.FitToShare i config old)
    (roots : q.roots = p.roots)
    (manual : ∀ key b, q.manualBundles.get? key = some b →
      ∃ old, p.manualBundles.get? key = some old ∧ b.assets = old.assets)
    (continues : p.Continues old b) : q.FitToShare i config b := by
  refine ⟨?_, ?_, ?_, ?_, ?_⟩
  · intro c consumer
    rw [loadsShared_congr roots]
    rcases continues.consumers c consumer with before | joins
    · exact fit.consumers c before
    · exact joins
  · rw [continues.assets]
    exact fit.nonempty
  · rw [continues.assets, continues.fileType]
    intro x has
    obtain ⟨notRoot, notManual, asset⟩ := fit.assets x has
    refine ⟨?_, ?_, asset⟩
    · unfold root?
      rw [roots]
      exact notRoot
    · intro key b found
      obtain ⟨old, found, same⟩ := manual key b found
      rw [same]
      exact notManual key old found
  · rw [continues.assets, continues.size]
    exact fit.size
  · rw [continues.size]
    exact fit.large

theorem FitToShare.of_eq {b : SharedBundle} (fit : p.FitToShare i config b)
    (roots : q.roots = p.roots) (manual : q.manualBundles = p.manualBundles) :
    q.FitToShare i config b := by
  refine fit.of_continues roots ?_ (.refl b)
  rw [manual]
  exact fun key b found => ⟨b, found, rfl⟩

theorem SharesWell.of_carries (well : p.SharesWell i config) (carries : Carries p q) :
    q.SharesWell i config := by
  constructor
  · intro b listed
    obtain ⟨old, listed, continues⟩ := carries.shared b listed
    exact (well.fit old listed).of_continues carries.roots carries.manual continues
  · rw [carries.assets]
    exact well.apart

end Plan

/-! Making shared bundles: what is set aside for some roots becomes a bundle of theirs. -/

namespace Sharing

open Plan

variable {p q : Plan} {i : Index} {config : Config} {claimed : KeySet AssetKey} {s next : Sharing}

/-- The asset is set aside for two or more roots that load shared bundles, and for its type. -/
structure SetAside (p : Plan) (i : Index) (claimed : KeySet AssetKey)
    (key : List AssetKey × FileType) (x : AssetKey) : Prop where
  distinct : key.1.Nodup
  several : 2 ≤ key.1.length
  roots : ∀ m ∈ key.1, p.LoadsShared m
  notRoot : p.root? x = none
  unclaimed : x ∉ claimed
  asset : ∃ asset, i.asset x = .ok asset ∧ asset.isSplittable = true ∧ asset.fileType = key.2

/-- While assets are considered one by one, each is set aside once at most. -/
structure Considering (p : Plan) (i : Index) (claimed : KeySet AssetKey)
    (rest : List (AssetKey × KeySet AssetKey)) (s : Sharing) : Prop where
  packs : Packs p s.plan
  distinct : rest.Pairwise fun a b => a.1 ≠ b.1
  nonempty : ∀ key assets, s.provisional.get? key = some assets → ∃ x, x ∈ assets
  setAside : ∀ key, ∀ x ∈ s.provisional.setAt key, SetAside p i claimed key x
  fresh : ∀ key, ∀ x ∈ s.provisional.setAt key, ∀ c ∈ rest, c.1 ≠ x
  once : ∀ key other x, x ∈ s.provisional.setAt key → x ∈ s.provisional.setAt other → key = other

theorem isShareable_iff {key : AssetKey} {asset : Asset} {candidates : List AssetKey} :
    p.isShareable config claimed key asset candidates = true ↔
      config.disableSharedBundles = false ∧ key ∉ claimed ∧ p.root? key = none ∧
        asset.isSplittable = true ∧ config.sharedThreshold ≤ candidates.length := by
  simp only [isShareable, KeyMap.contains, root?, Bool.and_eq_true, Bool.not_eq_true',
    decide_eq_false_iff_not, Option.isSome_eq_false_iff, Option.isNone_iff_eq_none,
    decide_eq_true_eq, and_assoc]

theorem Considering.step {entry : AssetKey × KeySet AssetKey}
    {rest : List (AssetKey × KeySet AssetKey)}
    (considering : Considering p i claimed (entry :: rest) s)
    (success : consider i config claimed s entry = .ok next) :
    Considering p i claimed rest next := by
  obtain ⟨asset, candidates, known, rfl, step⟩ := consider_cases success
  obtain ⟨fresh, distinct⟩ := List.pairwise_cons.1 considering.distinct
  have later : ∀ key, ∀ x ∈ s.provisional.setAt key, ∀ c ∈ rest, c.1 ≠ x :=
    fun key x aside c member => considering.fresh key x aside c (List.mem_cons_of_mem _ member)
  rcases step with ⟨shareable, rfl⟩ | ⟨_, rfl⟩
  · have sameRoots (k : AssetKey) : s.plan.root? k = p.root? k :=
      congrArg (KeyMap.get? · k) considering.packs.roots
    obtain ⟨_, unclaimed, notRoot, splittable, enough⟩ := isShareable_iff.1 shareable
    rw [sameRoots] at notRoot
    refine ⟨considering.packs.trans (packs_packInto _ _ _ _), distinct, ?_, ?_, ?_, ?_⟩
    · intro key assets found
      rw [KeyMap.get?_update] at found
      split at found
      · cases found
        exact ⟨entry.1, KeySet.mem_insert.2 (.inl rfl)⟩
      · exact considering.nonempty key assets found
    · intro key x aside
      rcases KeyMap.mem_setAt_update_insert.1 aside with ⟨rfl, rfl⟩ | old
      · refine ⟨entry.2.nodup_toList.filter _, ?_, ?_, notRoot, unclaimed, asset, known, splittable,
          rfl⟩
        · exact Nat.le_trans (Nat.le_max_right _ _) enough
        · intro m listed
          have loads := loadsShared_iff.1 (Bool.not_eq_true' _ ▸ (List.mem_filter.1 listed).2)
          unfold LoadsShared at loads ⊢
          rwa [sameRoots] at loads
      · exact considering.setAside key x old
    · intro key x aside c member
      rcases KeyMap.mem_setAt_update_insert.1 aside with ⟨rfl, rfl⟩ | old
      · exact (fresh c member).symm
      · exact later key x old c member
    · intro key other x left right
      -- an asset that was set aside before is not the one that is considered now
      have before {key} (old : x ∈ s.provisional.setAt key) : x ≠ entry.1 :=
        (considering.fresh key x old entry List.mem_cons_self).symm
      rcases KeyMap.mem_setAt_update_insert.1 left with ⟨rfl, now⟩ | oldLeft
      · rcases KeyMap.mem_setAt_update_insert.1 right with ⟨rfl, _⟩ | oldRight
        · rfl
        · exact absurd now (before oldRight)
      · rcases KeyMap.mem_setAt_update_insert.1 right with ⟨rfl, now⟩ | oldRight
        · exact absurd now (before oldLeft)
        · exact considering.once key other x oldLeft oldRight
  · exact ⟨considering.packs.trans (packs_packInto _ _ _ _), distinct, considering.nonempty,
      considering.setAside, later, considering.once⟩

/-- Nothing is set aside before the first asset is considered. -/
theorem considering_start (p : Plan) (i : Index) (claimed : KeySet AssetKey)
    (packing : KeyMap AssetKey (KeySet AssetKey)) :
    Considering p i claimed packing.entries ⟨p, ∅, 0⟩ := by
  refine ⟨.refl p, packing.ascending.imp fun earlier => KeyOrder.ne_of_before earlier, ?_, ?_, ?_,
    ?_⟩
  · intro key assets found
    cases found
  · intro key x aside
    exact absurd aside (KeySet.not_mem_empty x)
  · intro key x aside
    exact absurd aside (KeySet.not_mem_empty x)
  · intro key other x aside
    exact absurd aside (KeySet.not_mem_empty x)

/-- While what was set aside is settled, the bundles made so far are fit and hold nothing of what is
still to come. -/
structure Settling (p : Plan) (i : Index) (config : Config) (claimed : KeySet AssetKey)
    (rest : List ((List AssetKey × FileType) × KeySet AssetKey)) (q : Plan) : Prop where
  roots : q.roots = p.roots
  manual : q.manualBundles = p.manualBundles
  nonempty : ∀ c ∈ rest, ∃ x, x ∈ c.2
  setAside : ∀ c ∈ rest, ∀ x ∈ c.2, SetAside p i claimed c.1 x
  waiting : rest.Pairwise fun a b => Apart a.2 b.2
  fresh : ∀ b ∈ q.sharedBundles, ∀ c ∈ rest, Apart b.assets c.2
  sharesWell : q.SharesWell i config
  several : q.Several

theorem mem_setAt_of_mem_entries {c : (List AssetKey × FileType) × KeySet AssetKey}
    (listed : c ∈ s.provisional.entries) {x : AssetKey} (member : x ∈ c.2) :
    x ∈ s.provisional.setAt c.1 :=
  KeyMap.mem_setAt_iff.2 ⟨c.2, KeyMap.get?_eq_some_iff.2 listed, member⟩

/-- All that was set aside is to be settled, if there were no shared bundles before. -/
theorem Considering.settling (considering : Considering p i claimed [] s)
    (none : p.sharedBundles = []) :
    Settling p i config claimed s.provisional.entries s.plan := by
  have shared : s.plan.sharedBundles = [] := considering.packs.sharedBundles.trans none
  refine ⟨considering.packs.roots, considering.packs.manualBundles, ?_, ?_, ?_, ?_, ⟨?_, ?_⟩, ?_⟩
  · exact fun c listed => considering.nonempty c.1 c.2 (KeyMap.get?_eq_some_iff.2 listed)
  · exact fun c listed x member =>
      considering.setAside c.1 x (mem_setAt_of_mem_entries listed member)
  · refine s.provisional.ascending.imp_of_mem ?_
    intro a b left right earlier x onLeft onRight
    exact KeyOrder.ne_of_before earlier (considering.once a.1 b.1 x
      (mem_setAt_of_mem_entries left onLeft) (mem_setAt_of_mem_entries right onRight))
  · simp [shared]
  · simp [shared]
  · simp [shared]
  · simp [Several, liveSharedBundles, shared]

theorem Settling.step {entry : (List AssetKey × FileType) × KeySet AssetKey}
    {rest : List ((List AssetKey × FileType) × KeySet AssetKey)}
    (manualClaimed : ∀ key b, p.manualBundles.get? key = some b → ∀ x ∈ b.assets, x ∈ claimed)
    (settling : Settling p i config claimed (entry :: rest) q) {next : Plan}
    (success : (settle i config q entry).result = .ok next) :
    Settling p i config claimed rest next := by
  obtain ⟨fresh, waiting⟩ := List.pairwise_cons.1 settling.waiting
  have later : ∀ c ∈ rest, ∀ x ∈ c.2, SetAside p i claimed c.1 x :=
    fun c member => settling.setAside c (List.mem_cons_of_mem _ member)
  have nonempty : ∀ c ∈ rest, ∃ x, x ∈ c.2 :=
    fun c member => settling.nonempty c (List.mem_cons_of_mem _ member)
  obtain ⟨size, measured, ⟨_, rfl⟩ | ⟨large, rfl⟩⟩ := settle_cases success
  · have packs := packs_packAll_each q entry.1.1 entry.1.2 entry.2.toList
    refine ⟨packs.roots.trans settling.roots, packs.manualBundles.trans settling.manual, nonempty,
      later, waiting, ?_, settling.sharesWell.of_carries (.of_packs packs), ?_⟩
    · rw [packs.sharedBundles]
      exact fun b listed c member => settling.fresh b listed c (List.mem_cons_of_mem _ member)
    · unfold Several liveSharedBundles
      rw [packs.sharedBundles]
      exact settling.several
  · obtain ⟨first, isFirst⟩ := settling.nonempty entry List.mem_cons_self
    have aside := settling.setAside entry List.mem_cons_self
    have made :
        q.FitToShare i config ⟨entry.1.2, entry.2, KeySet.ofList entry.1.1, size, true⟩ := by
      refine ⟨?_, ⟨first, isFirst⟩, ?_, measured, large⟩
      · intro c consumer
        rw [loadsShared_congr settling.roots]
        exact (aside first isFirst).roots c (KeySet.mem_ofList.1 consumer)
      · intro x has
        refine ⟨?_, ?_, (aside x has).asset⟩
        · unfold root?
          rw [settling.roots]
          exact (aside x has).notRoot
        · rw [settling.manual]
          exact fun key b found member =>
            (aside x has).unclaimed (manualClaimed key b found x member)
    refine ⟨settling.roots, settling.manual, nonempty, later, waiting, ?_, ⟨?_, ?_⟩, ?_⟩
    · intro b listed c member
      rcases List.mem_append.1 listed with old | new
      · exact settling.fresh b old c (List.mem_cons_of_mem _ member)
      · rw [List.mem_singleton.1 new]
        exact fresh c member
    · intro b listed
      rcases List.mem_append.1 listed with old | new
      · exact (settling.sharesWell.fit b old).of_eq rfl rfl
      · rw [List.mem_singleton.1 new]
        exact made.of_eq rfl rfl
    · rw [List.map_append, List.pairwise_append]
      refine ⟨settling.sharesWell.apart, List.pairwise_singleton _ _, ?_⟩
      intro left listed right new
      obtain ⟨b, made, rfl⟩ := List.mem_map.1 listed
      rw [List.mem_singleton.1 new]
      exact settling.fresh b made entry List.mem_cons_self
    · intro b live
      obtain ⟨listed, alive⟩ := List.mem_filter.1 live
      rcases List.mem_append.1 listed with old | new
      · exact settling.several b (List.mem_filter.2 ⟨old, alive⟩)
      · rw [List.mem_singleton.1 new, KeySet.size_ofList (aside first isFirst).distinct]
        exact (aside first isFirst).several

end Sharing

namespace Plan

variable {p q : Plan} {i : Index} {config : Config} {group : AssetKey}

/-- Placing all assets of a plan without shared bundles. -/
theorem shareAssets_sharesWell {claimed : KeySet AssetKey}
    {packing : KeyMap AssetKey (KeySet AssetKey)} (none : p.sharedBundles = [])
    (manualClaimed : ∀ key b, p.manualBundles.get? key = some b → ∀ x ∈ b.assets, x ∈ claimed)
    (success : (p.shareAssets i config claimed packing).result = .ok q) :
    q.SharesWell i config ∧ q.Several := by
  unfold shareAssets at success
  obtain ⟨s, considered, success⟩ := Report.result_bind_eq_ok.1 success
  obtain ⟨shared, settled, success⟩ := Report.result_bind_eq_ok.1 success
  cases success
  rw [Report.result_foldlM] at settled
  have considering : Sharing.Considering p i claimed [] s :=
    foldlM_ok_induction (Sharing.Considering p i claimed)
      (fun _ _ _ _ considering step => considering.step step)
      (Sharing.considering_start p i claimed packing) considered
  have settling : Sharing.Settling p i config claimed [] q :=
    foldlM_ok_induction (Sharing.Settling p i config claimed)
      (fun _ _ _ _ settling step => settling.step manualClaimed step)
      (considering.settling none) settled
  exact ⟨settling.sharesWell, settling.several⟩

theorem sharesWell_of_places {entries : List Entry} {placed : Plan}
    (places : i.Places config entries placed) : placed.SharesWell i config ∧ placed.Several := by
  obtain ⟨target, walked, reach, packing, extracted, e, walks, _, moved, shared⟩ := places.passes
  obtain ⟨rfl, rfl⟩ := Index.walkedPlan_ok walks
  unfold extractManualBundles at moved
  obtain ⟨_, extraction, moved⟩ := Report.result_bind_eq_ok.1 moved
  cases moved
  refine shareAssets_sharesWell rfl ?_ shared
  intro key b found x has
  exact (Extraction.claimed_of_extraction (fun key b none => by cases none) extraction found has).1

/-! Limiting. -/

theorem carries_removeShared {place : Nat} {b : SharedBundle}
    (found : p.sharedBundles[place]? = some b) (consumers : KeySet AssetKey) :
    Carries p (p.removeShared place consumers) := by
  have packs := packs_packAll_each p consumers.toList b.fileType b.assets.toList
  have same := sharedBundles_removeShared found consumers
  refine ⟨?_, ?_, ?_, ?_⟩
  · unfold removeShared
    rw [found]
    exact packs.roots
  · rw [manualBundles_removeShared]
    exact fun key b found => ⟨b, found, rfl⟩
  · have unchanged : (p.sharedBundles.map SharedBundle.assets)[place]? = some b.assets := by
      rw [List.getElem?_map, found, Option.map_some]
    obtain ⟨inside, value⟩ := List.getElem?_eq_some_iff.1 unchanged
    rw [same, List.map_set]
    show List.set _ place b.assets = _
    rw [← value, List.set_getElem_self]
  · rw [same]
    intro c listed
    rcases List.mem_or_eq_of_mem_set listed with old | rfl
    · exact ⟨c, old, .refl c⟩
    · exact ⟨b, List.mem_of_getElem? found, rfl, rfl, rfl,
        fun m consumer => .inl (KeySet.mem_diff.1 consumer).1⟩

theorem carries_prune (pruned : (p.prune i).result = .ok q) : Carries p q := by
  have packs := packs_prune pruned
  refine .of_map packs.roots ?_ packs.sharedBundles ?_
  · rw [packs.manualBundles]
    exact fun key b found => ⟨b, found, rfl⟩
  · intro b
    split
    · exact ⟨rfl, rfl, rfl, fun _ => .inl⟩
    · exact .refl b

theorem several_prune (pruned : (p.prune i).result = .ok q) : q.Several := by
  intro b live
  obtain ⟨listed, alive⟩ := List.mem_filter.1 live
  rw [(packs_prune pruned).sharedBundles] at listed
  obtain ⟨old, _, rfl⟩ := List.mem_map.1 listed
  by_cases spent : isSpent old = true
  · rw [if_pos spent] at alive
    cases alive
  · rw [if_neg spent] at alive ⊢
    have many : ¬old.consumers.size < 2 := fun few => spent (by simp [isSpent, alive, few])
    exact Nat.not_lt.1 many

theorem carries_copyReused (p : Plan) (reused : AssetKey) (buckets : Buckets)
    (nested : List AssetKey) (outgoing : List BundleEdge) {reuser : AssetKey} {root : Root}
    (known : p.root? reuser = some root) :
    Carries p (p.copyReused reused buckets nested outgoing reuser) := by
  have rewires := rewires_rewired p reused buckets nested outgoing reuser
  have manual : ∀ key b,
      (p.rewired reused buckets nested outgoing reuser).manualBundles.get? key = some b →
        ∃ old, p.manualBundles.get? key = some old ∧ b.assets = old.assets := by
    intro key b found
    unfold rewired at found
    rw [KeyMap.get?_map] at found
    obtain ⟨old, before, rfl⟩ := Option.map_eq_some_iff.1 found
    refine ⟨old, before, ?_⟩
    split
    · rfl
    · rfl
  have unchanged : (p.rewired reused buckets nested outgoing reuser).sharedBundles =
      p.sharedBundles.map id := by
    rw [rewires.sharedBundles, List.map_id]
  rw [copyReused_eq]
  split
  · have packs := Packs.foldl (fun p (b : SharedBundle) =>
      packs_packAll p reuser b.fileType b.assets.toList)
      (p.liveSharedBundles.filter fun b => reused ∈ b.consumers)
      (p.rewired reused buckets nested outgoing reuser)
    have carries : Carries p (p.rewired reused buckets nested outgoing reuser) :=
      .of_map rewires.roots manual unchanged fun b => .refl b
    exact carries.trans (.of_packs packs)
  · rename_i loads
    rw [known, Option.any_some, Bool.not_eq_true] at loads
    refine .of_map rewires.roots manual rfl ?_
    intro b
    split
    · refine ⟨rfl, rfl, rfl, ?_⟩
      intro c consumer
      rcases KeySet.mem_insert.1 consumer with rfl | old
      · exact .inr ⟨root, known, loads⟩
      · exact .inl old
    · exact .refl b

/-- Whatever reuses is a root. -/
def RootsReuse (p : Plan) : Prop := ∀ a b, p.Reuses a b → ∃ root, p.root? a = some root

theorem rootsReuse_of_places {entries : List Entry} {placed : Plan}
    (places : i.Places config entries placed) : placed.RootsReuse := by
  obtain ⟨_, shape⟩ := places.sameShape
  intro a b reuses
  unfold Reuses at reuses
  rw [shape.reused] at reuses
  obtain ⟨root, found, _⟩ := Index.mem_reusedRoots.1 reuses
  refine ⟨root, ?_⟩
  unfold root?
  rw [shape.roots]
  exact found

theorem carries_removeReused {reused : AssetKey} {reusers : KeySet AssetKey}
    (known : ∀ reuser ∈ reusers, ∃ root, p.root? reuser = some root) :
    Carries p (p.removeReused reused reusers).withGroups := by
  have carries : Carries p (p.removeReused reused reusers) := by
    refine removeReused_induction (Carries p) (.of_eq rfl rfl rfl) ?_
    intro q carries reuser listed
    obtain ⟨root, known⟩ := known reuser listed
    rw [← show q.root? reuser = p.root? reuser from congrArg (KeyMap.get? · reuser) carries.roots]
      at known
    exact carries.trans (carries_copyReused q reused _ _ _ known)
  exact carries.trans (.of_eq rfl rfl rfl)

/-- One removal. -/
theorem Removes.carries (removes : p.Removes i group q) (roots : p.RootsReuse) :
    Carries p q ∧ q.Several := by
  rcases removes.cases with ⟨place, b, found, _, pruned⟩ | ⟨reused, reusers, _, reusing, pruned⟩
  · exact ⟨(carries_removeShared found _).trans (carries_prune pruned), several_prune pruned⟩
  · refine ⟨(carries_removeReused ?_).trans (carries_prune pruned), several_prune pruned⟩
    intro reuser taker
    exact roots reuser reused ((reusing reuser).1 taker).2

theorem Removes.rootsReuse (removes : p.Removes i group q) (roots : p.RootsReuse) :
    q.RootsReuse := by
  intro a b reuses
  unfold root?
  rw [removes.roots]
  rcases removes.effects with enriches | ⟨reused, reusers, reusing, spreads, enriches⟩
  · unfold Reuses at reuses
    rw [enriches.reused] at reuses
    exact roots a b reuses
  · unfold Reuses at reuses
    rw [enriches.reused] at reuses
    have reuses := (spreads.reuses a b).1 reuses
    split at reuses
    · rename_i taker
      exact roots a reused (reusing a taker)
    · exact roots a b reuses

/-- Any number of removals. -/
theorem sharesWell_limitRequests (well : p.SharesWell i config) (several : p.Several)
    (roots : p.RootsReuse) (success : (p.limitRequests i config).result = .ok q) :
    q.SharesWell i config ∧ q.Several := by
  obtain ⟨_, run⟩ := removesIn_of_limitRequests success
  have kept := run.keeps
    (motive := fun q => (q.SharesWell i config ∧ q.Several) ∧ q.RootsReuse) ?_
    ⟨⟨well, several⟩, roots⟩
  · exact kept.1
  · rintro before group after ⟨⟨well, _⟩, roots⟩ removes
    obtain ⟨carries, several⟩ := removes.carries roots
    exact ⟨⟨well.of_carries carries, several⟩, removes.rootsReuse roots⟩

end Plan

/-- The shared bundles of a plan that is returned. Each live one is loaded by two roots at least,
none of them entry-like. It holds something, all of it splittable, of the type of the bundle, no
root and in no manual bundle; its size is that of all it holds and not below the least size. No
asset is in two of them. -/
theorem shared_bundles_fit_and_apart (i : Index) (config : Config) (entries : List Entry) (p : Plan)
    (success : (i.planTarget config entries).result = .ok p) :
    (∀ b ∈ p.liveSharedBundles,
      2 ≤ b.consumers.size ∧
      (∀ c ∈ b.consumers, ∃ root, p.root? c = some root ∧ root.isEntryLike = false) ∧
      (∃ x, x ∈ b.assets) ∧
      (∀ x ∈ b.assets, p.root? x = none ∧
        (∀ key manual, p.manualBundles.get? key = some manual → x ∉ manual.assets) ∧
        ∃ asset, i.asset x = .ok asset ∧ asset.isSplittable = true ∧
          asset.fileType = b.fileType) ∧
      i.totalSize b.assets = .ok b.size ∧ config.minBundleSize ≤ b.size) ∧
    p.liveSharedBundles.Pairwise fun b c => ∀ x ∈ b.assets, x ∉ c.assets := by
  obtain ⟨placed, places, limited⟩ := Index.places_of_planTarget success
  obtain ⟨well, several⟩ := Plan.sharesWell_of_places places
  obtain ⟨well, several⟩ := Plan.sharesWell_limitRequests well several
    (Plan.rootsReuse_of_places places) limited
  constructor
  · intro b live
    have fit := well.fit b (List.mem_filter.1 live).1
    refine ⟨several b live, fit.consumers, fit.nonempty, ?_, fit.size, fit.large⟩
    intro x has
    obtain ⟨notRoot, notManual, asset⟩ := fit.assets x has
    exact ⟨notRoot, notManual, asset⟩
  · exact (List.pairwise_map.1 well.apart).filter _

/-- Four pages `b`, `c`, `d` and `e` are loaded lazily. The first three need `lib`, the second and
the last need `util`. -/
def librariesOfPages : AssetGraph :=
  let dependency (id : String) (priority : Priority) : AssetGraph.Node :=
    .dependency { id, specifier := id, priority }
  { nodes := [.root, .dependency { id := "entry", specifier := "index", isEntry := true },
      .asset { id := "index" }, dependency "load b" .lazy, .asset { id := "b" },
      dependency "load c" .lazy, .asset { id := "c" }, dependency "load d" .lazy,
      .asset { id := "d" }, dependency "load e" .lazy, .asset { id := "e" },
      .asset { id := "lib", stats := { size := 10 } },
      .asset { id := "util", stats := { size := 20 } },
      dependency "b to lib" .sync, dependency "c to lib" .sync, dependency "d to lib" .sync,
      dependency "c to util" .sync, dependency "e to util" .sync]
    edges := [(0, 1), (1, 2), (2, 3), (3, 4), (2, 5), (5, 6), (2, 7), (7, 8), (2, 9), (9, 10),
      (4, 13), (13, 11), (6, 14), (14, 11), (8, 15), (15, 11), (6, 16), (16, 12), (10, 17),
      (17, 12)] }

def librariesOfPagesEntries : List Entry :=
  [⟨{ id := "entry", specifier := "index", isEntry := true }, 4, {}⟩]

/-- Of three requests for the page `c` one is too many: `lib` is copied into `c`, and stays a bundle
of the pages `b` and `d`. -/
theorem librariesOfPages_fit_and_apart :
    ∃ p, ((Index.ofGraph librariesOfPages).planTarget
        { minBundleSize := 10, maxParallelRequests := 2 } librariesOfPagesEntries).result = .ok p ∧
      5 ∈ p.bucket 1 .js ∧
      p.liveSharedBundles = [⟨.js, .ofList [5], .ofList [0, 2], 10, true⟩,
        ⟨.js, .ofList [6], .ofList [1, 3], 20, true⟩] ∧
      (∀ b ∈ p.liveSharedBundles, 2 ≤ b.consumers.size) ∧
      p.liveSharedBundles.Pairwise fun b c => ∀ x ∈ b.assets, x ∉ c.assets := by
  have returns : ((Index.ofGraph librariesOfPages).planTarget
      { minBundleSize := 10, maxParallelRequests := 2 } librariesOfPagesEntries).result.map
        (fun p => (p.bucket 1 .js, p.liveSharedBundles)) =
      .ok (.ofList [1, 5], [⟨.js, .ofList [5], .ofList [0, 2], 10, true⟩,
        ⟨.js, .ofList [6], .ofList [1, 3], 20, true⟩]) := by decide +kernel
  obtain ⟨p, success, same⟩ := map_eq_ok_iff.1 returns
  obtain ⟨bucket, live⟩ := Prod.mk.inj same
  obtain ⟨each, apart⟩ := shared_bundles_fit_and_apart _ _ _ p success
  refine ⟨p, success, ?_, live, fun b listed => (each b listed).1, apart⟩
  rw [bucket]
  decide

end CodeSplit
