import CodeSplit.Proofs.PlanContents

/-!
Where assets can be copied to. Assets are placed in the roots that have to package them, and later
copied from a shared bundle into the roots that load it, or from a reused root into those that reuse
it. So whatever is true of all roots with an asset to start with, and passes from a reused root to
its reusers, is true of all roots with an asset in the end.
-/
namespace CodeSplit

namespace Plan

variable {p q : Plan} {i : Index} {config : Config} {allowed : AssetKey → AssetKey → Prop}
  {group reused reuser root x : AssetKey}

/-- Each root may have what it packages and what is in the shared bundles that it loads, and may
have all that the roots which it reuses may have. -/
structure Admits (p : Plan) (allowed : AssetKey → AssetKey → Prop) : Prop where
  packages : ∀ root x, p.Packages root x → allowed root x
  shared : ∀ b ∈ p.sharedBundles, ∀ c ∈ b.consumers, ∀ x ∈ b.assets, allowed c x
  reused : ∀ a b, p.Reuses a b → ∀ x, allowed b x → allowed a x

section Packing

theorem packages_foldl {α : Type} {owner : α → AssetKey} {type : α → FileType}
    {assets : α → List AssetKey} {as : List α} :
    (as.foldl (fun p a => p.packAll (owner a) (type a) (assets a)) p).Packages root x ↔
      (∃ a ∈ as, owner a = root ∧ x ∈ assets a) ∨ p.Packages root x := by
  unfold Packages
  simp only [mem_bucket_foldl, exists_or]
  refine or_congr_left ?_
  constructor
  · rintro ⟨_, a, listed, same, _, member⟩
    exact ⟨a, listed, same, member⟩
  · rintro ⟨a, listed, same, member⟩
    exact ⟨_, a, listed, same, rfl, member⟩

theorem Admits.fill {α : Type} {owner : α → AssetKey} {type : α → FileType}
    {assets : α → List AssetKey} {as : List α} (admits : p.Admits allowed)
    (each : ∀ a ∈ as, ∀ x ∈ assets a, allowed (owner a) x) :
    (as.foldl (fun p a => p.packAll (owner a) (type a) (assets a)) p).Admits allowed := by
  have packs : Packs p (as.foldl (fun p a => p.packAll (owner a) (type a) (assets a)) p) :=
    .foldl (fun p a => packs_packAll p (owner a) (type a) (assets a)) as p
  refine ⟨?_, ?_, ?_⟩
  · intro root x packed
    rcases packages_foldl.1 packed with ⟨a, listed, rfl, member⟩ | old
    · exact each a listed x member
    · exact admits.packages root x old
  · rw [packs.sharedBundles]
    exact admits.shared
  · unfold Reuses
    rw [packs.reused]
    exact admits.reused

theorem Admits.packInto (admits : p.Admits allowed) {roots : List AssetKey} {fileType : FileType}
    (each : ∀ m ∈ roots, allowed m x) : (p.packInto roots fileType x).Admits allowed := by
  rw [packInto_eq_foldl]
  refine admits.fill ?_
  intro m listed y member
  rw [List.mem_singleton.1 member]
  exact each m listed

theorem Admits.withShared (admits : p.Admits allowed) {bundles : List SharedBundle}
    (each : ∀ b ∈ bundles, ∀ c ∈ b.consumers, ∀ x ∈ b.assets, allowed c x) :
    Admits { p with sharedBundles := bundles } allowed :=
  ⟨admits.packages, each, admits.reused⟩

end Packing

section Removing

theorem Admits.removeShared (admits : p.Admits allowed) {place : Nat} {b : SharedBundle}
    (found : p.sharedBundles[place]? = some b) {consumers : KeySet AssetKey}
    (some : ∀ c ∈ consumers, c ∈ b.consumers) :
    (p.removeShared place consumers).Admits allowed := by
  have loads := admits.shared b (List.mem_of_getElem? found)
  unfold Plan.removeShared
  rw [found]
  refine Admits.withShared (admits.fill fun c taken => loads c (some c taken)) ?_
  intro other listed
  rcases List.mem_or_eq_of_mem_set listed with old | rfl
  · exact admits.shared other old
  · exact fun c consumer => loads c (KeySet.mem_diff.1 consumer).1

theorem Admits.prune (admits : p.Admits allowed) (success : (p.prune i).result = .ok q) :
    q.Admits allowed := by
  unfold Plan.prune at success
  simp only [Report.result_foldlM] at success
  have start : Admits { p with sharedBundles := retired p.sharedBundles } allowed := by
    refine admits.withShared ?_
    intro b listed
    obtain ⟨old, kept, rfl⟩ := List.mem_map.1 listed
    split
    · exact admits.shared old kept
    · exact admits.shared old kept
  refine (foldlM_ok_induction (fun rest q => (∀ b ∈ rest, b ∈ p.sharedBundles) ∧ q.Admits allowed)
    ?_ ⟨fun b listed => List.mem_of_mem_filter listed, start⟩ success).2
  rintro b rest before after ⟨listed, current⟩ step
  obtain rfl := dissolve_eq step
  refine ⟨fun c later => listed c (List.mem_cons_of_mem _ later), ?_⟩
  exact current.fill fun c consumer => admits.shared b (listed b List.mem_cons_self) c consumer

variable {buckets : Buckets} {nested : List AssetKey} {outgoing : List BundleEdge}

theorem Admits.rewired (admits : p.Admits allowed)
    (passes : ∀ x, allowed reused x → allowed reuser x)
    (taken : ∀ fileType assets, buckets.get? fileType = some assets →
      ∀ x ∈ assets, allowed reused x)
    (inherits : ∀ n ∈ nested, ∀ x, allowed n x → allowed reused x) :
    (p.rewired reused buckets nested outgoing reuser).Admits allowed := by
  have packed : (buckets.entries.foldl
      (fun p entry => p.packAll reuser entry.1 entry.2.toList) p).Admits allowed :=
    admits.fill fun entry listed x member =>
      passes x (taken entry.1 entry.2 (KeyMap.get?_eq_some_iff.2 listed) x member)
  refine ⟨?_, ?_, ?_⟩
  · intro root x held
    rw [packages_congr (placements_rewired p reused buckets nested outgoing reuser)] at held
    exact packed.packages root x held
  · rw [(rewires_rewired p reused buckets nested outgoing reuser).sharedBundles]
    exact admits.shared
  · intro a b pair
    rcases mem_pairs_copyReused.1 pair with ⟨old, _⟩ | ⟨rfl, inherited, _⟩
    · exact admits.reused a b old
    · exact fun x may => passes x (inherits b inherited x may)

theorem Admits.copyReused (admits : p.Admits allowed)
    (passes : ∀ x, allowed reused x → allowed reuser x)
    (taken : ∀ fileType assets, buckets.get? fileType = some assets →
      ∀ x ∈ assets, allowed reused x)
    (inherits : ∀ n ∈ nested, ∀ x, allowed n x → allowed reused x) :
    (p.copyReused reused buckets nested outgoing reuser).Admits allowed := by
  have rewired : (p.rewired reused buckets nested outgoing reuser).Admits allowed :=
    admits.rewired passes taken inherits
  rw [copyReused_eq]
  split
  · refine rewired.fill fun b listed x member => ?_
    obtain ⟨live, loads⟩ := List.mem_filter.1 listed
    exact passes x (admits.shared b (List.mem_of_mem_filter live) reused (of_decide_eq_true loads) x
      member)
  · refine rewired.withShared ?_
    intro b listed
    obtain ⟨old, kept, rfl⟩ := List.mem_map.1 listed
    split
    · rename_i joins
      intro c consumer x member
      rcases KeySet.mem_insert.1 consumer with rfl | before
      · exact passes x (admits.shared old kept reused joins.2 x member)
      · exact admits.shared old kept c before x member
    · exact admits.shared old kept

theorem Admits.removeReused (admits : p.Admits allowed) {reusers : KeySet AssetKey}
    (reuses : ∀ reuser ∈ reusers, p.Reuses reuser reused) :
    (p.removeReused reused reusers).withGroups.Admits allowed := by
  have copied : (p.removeReused reused reusers).Admits allowed := by
    refine removeReused_induction (fun q => q.Admits allowed) admits ?_
    intro q current reuser listed
    refine current.copyReused (admits.reused reuser reused (reuses reuser listed)) ?_ ?_
    · intro fileType assets found x member
      exact admits.packages reused x ⟨fileType, KeyMap.mem_setAt_iff.2 ⟨_, found, member⟩⟩
    · intro n nested
      exact admits.reused reused n (mem_reusedBy.1 nested)
  exact ⟨copied.packages, copied.shared, copied.reused⟩

theorem Removes.admits (removes : p.Removes i group q) (admits : p.Admits allowed) :
    q.Admits allowed := by
  rcases removes.cases with ⟨place, b, found, _, pruned⟩ | ⟨reused, reusers, _, same, pruned⟩
  · exact (admits.removeShared found fun c taken => (KeySet.mem_inter.1 taken).1).prune pruned
  · exact (admits.removeReused fun reuser taker => ((same reuser).1 taker).2).prune pruned

theorem Admits.limitRequests (admits : p.Admits allowed)
    (success : (p.limitRequests i config).result = .ok q) : q.Admits allowed := by
  obtain ⟨_, run⟩ := removesIn_of_limitRequests success
  exact run.keeps (fun _ _ _ admits removes => removes.admits admits) admits

end Removing

end Plan

/-! Placing. -/

namespace Sharing

variable {p q : Plan} {i : Index} {config : Config} {allowed : AssetKey → AssetKey → Prop}
  {claimed : KeySet AssetKey} {s next : Sharing}

/-- Roots may have what has been placed in them and what is set aside for them. -/
structure Admits (s : Sharing) (allowed : AssetKey → AssetKey → Prop) : Prop where
  plan : s.plan.Admits allowed
  aside : ∀ key, ∀ x ∈ s.provisional.setAt key, ∀ m ∈ key.1, allowed m x

theorem Admits.consider {entry : AssetKey × KeySet AssetKey} (admits : s.Admits allowed)
    (waiting : ∀ m ∈ entry.2, allowed m entry.1)
    (success : consider i config claimed s entry = .ok next) : next.Admits allowed := by
  obtain ⟨asset, candidates, _, rfl, ⟨_, rfl⟩ | ⟨_, rfl⟩⟩ := consider_cases success
  · refine ⟨admits.plan.packInto fun m listed => waiting m (List.mem_of_mem_filter listed), ?_⟩
    intro key x aside m candidate
    rcases KeyMap.mem_setAt_update_insert.1 aside with ⟨rfl, rfl⟩ | old
    · exact waiting m (List.mem_of_mem_filter candidate)
    · exact admits.aside key x old m candidate
  · exact ⟨admits.plan.packInto waiting, admits.aside⟩

theorem admits_settle {entry : (List AssetKey × FileType) × KeySet AssetKey}
    (admits : p.Admits allowed) (aside : ∀ x ∈ entry.2, ∀ m ∈ entry.1.1, allowed m x)
    (success : (settle i config p entry).result = .ok q) : q.Admits allowed := by
  obtain ⟨size, _, ⟨_, rfl⟩ | ⟨_, rfl⟩⟩ := settle_cases success
  · exact admits.fill fun m listed x member => aside x member m listed
  · refine admits.withShared ?_
    intro b listed
    rcases List.mem_append.1 listed with old | new
    · exact admits.shared b old
    · rw [List.mem_singleton.1 new]
      exact fun c consumer x member => aside x member c (KeySet.mem_ofList.1 consumer)

end Sharing

namespace Plan

variable {p q : Plan} {i : Index} {config : Config} {allowed : AssetKey → AssetKey → Prop}

/-- Placing assets in roots that may have them. -/
theorem Admits.shareAssets {packing : KeyMap AssetKey (KeySet AssetKey)}
    {claimed : KeySet AssetKey} (admits : p.Admits allowed)
    (waiting : ∀ x, ∀ m ∈ packing.setAt x, allowed m x)
    (success : (p.shareAssets i config claimed packing).result = .ok q) : q.Admits allowed := by
  unfold Plan.shareAssets at success
  obtain ⟨s, considered, success⟩ := Report.result_bind_eq_ok.1 success
  obtain ⟨shared, settled, success⟩ := Report.result_bind_eq_ok.1 success
  cases success
  rw [Report.result_foldlM] at settled
  have set : s.Admits allowed := by
    refine (foldlM_ok_induction (fun rest s => (∀ c ∈ rest, packing.get? c.1 = some c.2) ∧
      s.Admits allowed) ?_ ⟨fun c listed => KeyMap.get?_eq_some_iff.2 listed, admits, ?_⟩
      considered).2
    · rintro entry rest before after ⟨listed, current⟩ step
      have found := listed entry List.mem_cons_self
      refine ⟨fun c later => listed c (List.mem_cons_of_mem _ later), current.consider ?_ step⟩
      exact fun m consumer => waiting entry.1 m (KeyMap.mem_setAt_iff.2 ⟨entry.2, found, consumer⟩)
    · intro key x aside
      exact absurd aside (KeySet.not_mem_empty x)
  refine (foldlM_ok_induction (fun rest q => (∀ c ∈ rest, c ∈ s.provisional.entries) ∧
    q.Admits allowed) ?_ ⟨fun c listed => listed, set.plan⟩ settled).2
  rintro entry rest before after ⟨listed, current⟩ step
  refine ⟨fun c later => listed c (List.mem_cons_of_mem _ later),
    Sharing.admits_settle current ?_ step⟩
  intro x member
  have found := KeyMap.get?_eq_some_iff.2 (listed entry List.mem_cons_self)
  exact set.aside entry.1 x (KeyMap.mem_setAt_iff.2 ⟨entry.2, found, member⟩)

/-- The plan in which all assets have been placed, from what the walks give: each root may have what
it reaches, unless that was moved into a manual bundle. -/
theorem admits_of_passes {entries : List Entry} {target : Target} {walked extracted placed : Plan}
    {reach : Reach} {packing : KeyMap AssetKey (KeySet AssetKey)} {e : Extraction}
    (walks : (i.walkedPlan target entries).result = .ok (walked, reach))
    (moved : (walked.extractManualBundles i config packing).result = .ok (extracted, e))
    (shared : (extracted.shareAssets i config e.claimed e.consumers).result = .ok placed)
    (waiting : ∀ x, ∀ m ∈ e.consumers.setAt x, allowed m x)
    (reused : ∀ a b, walked.Reuses a b → ∀ x, allowed b x → allowed a x) :
    placed.Admits allowed := by
  obtain ⟨rfl, rfl⟩ := Index.walkedPlan_ok walks
  obtain ⟨_, rfl⟩ := extractManualBundles_ok moved
  refine Admits.shareAssets (p := { Plan.withGroups _ with manualBundles := e.bundles })
    ⟨?_, ?_, reused⟩ waiting shared
  · rintro root x ⟨fileType, none⟩
    exact absurd none (KeySet.not_mem_empty x)
  · intro b none
    cases none

end Plan

end CodeSplit
