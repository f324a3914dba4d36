import CodeSplit.Proofs.AssetConservation
import CodeSplit.Proofs.SharedBundles

/-!
Bundles are homogeneous. A walk goes on only where the environment stays the same, roots that reuse
each other are of one environment, and whatever is copied later is copied along reuse or from a
shared bundle into a root that loads it. So all that a root packages is of its environment, and of
the type of the bundle, unless the root has everything in a single file.
-/
namespace CodeSplit

open Relation (ReflTransGen)

namespace Index

variable {i : Index} {entries : List Entry} {a b c root x : AssetKey}

def envId? (i : Index) (k : AssetKey) : Option String := (i.indexed? k).map IndexedAsset.envId

def SameEnvironment (i : Index) (a b : AssetKey) : Prop :=
  ∃ id, i.envId? a = some id ∧ i.envId? b = some id

/-- The asset is of the type, and of the environment of the root. -/
def Suits (i : Index) (root : AssetKey) (fileType : FileType) (x : AssetKey) : Prop :=
  i.SameEnvironment root x ∧ ∃ asset, i.asset? x = some asset ∧ asset.fileType = fileType

/-- Assets whose environments have the same id have the same environment. -/
def EnvironmentsById (i : Index) : Prop :=
  ∀ a b s t, i.indexed? a = some s → i.indexed? b = some t → s.envId = t.envId →
    s.asset.env = t.asset.env

theorem SameEnvironment.trans (first : i.SameEnvironment a b) (second : i.SameEnvironment b c) :
    i.SameEnvironment a c := by
  obtain ⟨id, left, middle⟩ := first
  obtain ⟨other, same, right⟩ := second
  cases middle.symm.trans same
  exact ⟨id, left, right⟩

theorem Suits.along {fileType : FileType} (same : i.SameEnvironment a b)
    (suits : i.Suits b fileType x) : i.Suits a fileType x :=
  ⟨same.trans suits.1, suits.2⟩

/-- A root has the environment of its asset. -/
theorem indexed_of_root {r : Root} (known : (i.roots entries).get? root = some r) :
    ∃ s, i.indexed? root = some s ∧ s.asset.env = r.env := by
  obtain ⟨_, asset, isAsset, rfl⟩ := get?_roots_eq_some_iff.1 known
  obtain ⟨s, indexed, rfl⟩ := Option.map_eq_some_iff.1 isAsset
  exact ⟨s, indexed, rfl⟩

/-- Whether all goes into a single file depends on the environment only. -/
theorem EnvironmentsById.isSingleFile_eq (byId : i.EnvironmentsById) (same : i.SameEnvironment a b)
    {r : Root} (known : (i.roots entries).get? a = some r) {t : IndexedAsset}
    (indexed : i.indexed? b = some t) : t.asset.env.singleFileOutput = r.isSingleFile := by
  obtain ⟨s, isRoot, env⟩ := indexed_of_root known
  obtain ⟨id, left, right⟩ := same
  unfold envId? at left right
  rw [isRoot, Option.map_some, Option.some_inj] at left
  rw [indexed, Option.map_some, Option.some_inj] at right
  rw [byId b a t s indexed isRoot (right.trans left.symm), env]
  rfl

/-- A dependency that starts no bundle stays in the environment, where output is not a single
file. -/
theorem sameEnvironment_of_synchronous (inside : i.ResolvesInside) {s : IndexedAsset}
    (indexed : i.indexed? a = some s) (several : s.asset.env.singleFileOutput = false)
    (resolves : i.ResolvesSynchronously a b) : i.SameEnvironment a b := by
  obtain ⟨link, member, resolved, none⟩ := resolves
  obtain ⟨asset, known⟩ := inside a b ⟨link, member, resolved⟩
  obtain ⟨t, target, _⟩ := Option.map_eq_some_iff.1 known
  unfold triggersOf at none
  rw [indexed, target] at none
  simp only [several, Bool.false_eq_true, if_false] at none
  have environment := congrArg Triggers.environment (of_decide_eq_true none)
  have same : s.envId = t.envId := of_not_not (of_decide_eq_false environment)
  refine ⟨s.envId, ?_, ?_⟩
  · rw [envId?, indexed, Option.map_some]
  · rw [envId?, target, Option.map_some, same]

section Walks

variable {roots : KeyMap AssetKey Root} {r : Root}

/-- Unless output is a single file, entering and reusing follow dependencies that start no
bundle. -/
theorem synchronous_of_step (several : r.isSingleFile = false)
    (steps : Step.enter b ∈ i.stepsOf roots root r a ∨ Step.reuse b ∈ i.stepsOf roots root r a) :
    i.ResolvesSynchronously a b := by
  have stays {link : Link} {target : AssetKey} (member : link ∈ i.links a)
      (resolved : link.target = some target)
      (steps : i.step roots root r a link.dependency target = .enter b ∨
        i.step roots root r a link.dependency target = .reuse b) : i.ResolvesSynchronously a b := by
    unfold step at steps
    simp only [several, Bool.false_eq_true, if_false] at steps
    by_cases none : (i.triggersOf a link.dependency target).isEmpty = true
    · have target : target = b := by
        simp only [none, Bool.not_true, Bool.false_eq_true, if_false] at steps
        split at steps
        · simpa using steps
        · simpa using steps
      subst target
      exact ⟨link, member, resolved, none⟩
    · simp only [Bool.not_eq_true] at none
      simp only [none, Bool.not_false, if_true] at steps
      split at steps
      · simp at steps
      · simp at steps
  rcases steps with enters | reuses
  · obtain ⟨link, member, target, resolved, step⟩ := mem_stepsOf.1 enters
    exact stays member resolved (.inl step)
  · obtain ⟨link, member, target, resolved, step⟩ := mem_stepsOf.1 reuses
    exact stays member resolved (.inr step)

/-- All that a walk comes to is of the environment of the root, and so is what is reused. -/
theorem sameEnvironment_of_walk (inside : i.ResolvesInside) (byId : i.EnvironmentsById)
    (known : (i.roots entries).get? root = some r) (several : r.isSingleFile = false)
    (walked : ReflTransGen (i.Enters (i.roots entries) root r) root a) :
    i.SameEnvironment root a ∧
      ∀ b, Step.reuse b ∈ i.stepsOf (i.roots entries) root r a → i.SameEnvironment root b := by
  have next {a b : AssetKey} (same : i.SameEnvironment root a)
      (resolves : i.ResolvesSynchronously a b) : i.SameEnvironment root b := by
    obtain ⟨id, _, right⟩ := id same
    obtain ⟨s, indexed, _⟩ := Option.map_eq_some_iff.1 right
    have single := byId.isSingleFile_eq same known indexed
    exact same.trans (sameEnvironment_of_synchronous inside indexed (single.trans several) resolves)
  have reached : i.SameEnvironment root a := by
    induction walked with
    | refl =>
      obtain ⟨s, indexed, _⟩ := indexed_of_root known
      have id : i.envId? root = some s.envId := by rw [envId?, indexed, Option.map_some]
      exact ⟨s.envId, id, id⟩
    | tail _ enters ih => exact next ih (synchronous_of_step several (.inl enters))
  exact ⟨reached, fun b reuses => next reached (synchronous_of_step several (.inr reuses))⟩

end Walks

/-- What is reused is a root of the same environment, which is not a single file. -/
theorem plain_of_reuse (inside : i.ResolvesInside) (byId : i.EnvironmentsById)
    (reuses : (a, b) ∈ i.reusedRoots (i.roots entries)) :
    i.SameEnvironment a b ∧ ∃ other, (i.roots entries).get? b = some other ∧
      other.isReusable = true ∧ other.isSingleFile = false := by
  obtain ⟨r, known, asset, path, reuse⟩ := mem_reusedRoots.1 reuses
  have several : r.isSingleFile = false := by
    obtain ⟨link, _, target, _, taken⟩ := mem_stepsOf.1 reuse
    by_contra single
    simp [step, Bool.not_eq_false _ ▸ single] at taken
  have same := (sameEnvironment_of_walk inside byId known several path).2 b reuse
  obtain ⟨other, isRoot, reusable⟩ := exists_reusable_of_reuse reuse
  obtain ⟨t, indexed, env⟩ := indexed_of_root isRoot
  have single := byId.isSingleFile_eq same known indexed
  rw [env] at single
  exact ⟨same, other, isRoot, reusable, single.trans several⟩

end Index

namespace Plan

variable {p q : Plan} {i : Index} {config : Config} {group reused reuser root x : AssetKey}

/-- The root is written as one file for each type. -/
def Plain (p : Plan) (root : AssetKey) : Prop := ∃ r, p.root? root = some r ∧ r.isSingleFile = false

theorem plain_congr (same : q.roots = p.roots) : q.Plain root ↔ p.Plain root := by
  unfold Plain root?
  rw [same]

theorem Plain.bucketType (plain : p.Plain root) (fileType : FileType) :
    p.bucketType root fileType = fileType := by
  obtain ⟨r, known, several⟩ := plain
  unfold Plan.bucketType
  rw [known]
  simp [several]

/-- All bundles of roots and shared bundles suit those they are for. -/
structure Homogeneous (p : Plan) (i : Index) : Prop where
  packages : ∀ root, p.Plain root → ∀ fileType, ∀ x ∈ p.bucket root fileType,
    i.Suits root fileType x
  shared : ∀ b ∈ p.sharedBundles, ∀ c ∈ b.consumers, ∀ x ∈ b.assets, i.Suits c b.fileType x
  reused : ∀ a b, p.Reuses a b → i.SameEnvironment a b ∧ p.Plain b

section Packing

/-- Packing what suits. -/
theorem Homogeneous.fill {α : Type} {owner : α → AssetKey} {type : α → FileType}
    {assets : α → List AssetKey} {as : List α} (homogeneous : p.Homogeneous i)
    (suits : ∀ a ∈ as, p.Plain (owner a) → ∀ x ∈ assets a, i.Suits (owner a) (type a) x) :
    (as.foldl (fun p a => p.packAll (owner a) (type a) (assets a)) p).Homogeneous i := by
  have packs : Packs p (as.foldl (fun p a => p.packAll (owner a) (type a) (assets a)) p) :=
    .foldl (fun p a => packs_packAll p (owner a) (type a) (assets a)) as p
  refine ⟨?_, ?_, ?_⟩
  · intro root plain fileType x packed
    rw [plain_congr packs.roots] at plain
    rcases mem_bucket_foldl.1 packed with ⟨a, listed, rfl, same, new⟩ | old
    · rw [plain.bucketType] at same
      rw [← same]
      exact suits a listed plain x new
    · exact homogeneous.packages root plain fileType x old
  · rw [packs.sharedBundles]
    exact homogeneous.shared
  · intro a b reuses
    unfold Reuses at reuses
    rw [packs.reused] at reuses
    rw [plain_congr packs.roots]
    exact homogeneous.reused a b reuses

theorem Homogeneous.packInto (homogeneous : p.Homogeneous i) {roots : List AssetKey}
    {fileType : FileType} (suits : ∀ m ∈ roots, p.Plain m → i.Suits m fileType x) :
    (p.packInto roots fileType x).Homogeneous i := by
  rw [packInto_eq_foldl]
  refine homogeneous.fill ?_
  intro m listed plain y member
  rw [List.mem_singleton.1 member]
  exact suits m listed plain

/-- Other shared bundles, each of which suits its consumers. -/
theorem Homogeneous.withShared (homogeneous : p.Homogeneous i) {bundles : List SharedBundle}
    (suits : ∀ b ∈ bundles, ∀ c ∈ b.consumers, ∀ x ∈ b.assets, i.Suits c b.fileType x) :
    Homogeneous { p with sharedBundles := bundles } i :=
  ⟨homogeneous.packages, suits, homogeneous.reused⟩

end Packing

section Removing

theorem Homogeneous.removeShared (homogeneous : p.Homogeneous i) {place : Nat} {b : SharedBundle}
    (found : p.sharedBundles[place]? = some b) {consumers : KeySet AssetKey}
    (some : ∀ c ∈ consumers, c ∈ b.consumers) :
    (p.removeShared place consumers).Homogeneous i := by
  have suits := homogeneous.shared b (List.mem_of_getElem? found)
  unfold Plan.removeShared
  rw [found]
  refine Homogeneous.withShared (homogeneous.fill fun c taken _ => suits c (some c taken)) ?_
  intro other listed
  rcases List.mem_or_eq_of_mem_set listed with old | rfl
  · exact homogeneous.shared other old
  · exact fun c consumer => suits c (KeySet.mem_diff.1 consumer).1

theorem Homogeneous.prune (homogeneous : p.Homogeneous i) (success : (p.prune i).result = .ok q) :
    q.Homogeneous i := by
  unfold Plan.prune at success
  simp only [Report.result_foldlM] at success
  have start : Homogeneous { p with sharedBundles := retired p.sharedBundles } i := by
    refine homogeneous.withShared ?_
    intro b listed
    obtain ⟨old, kept, rfl⟩ := List.mem_map.1 listed
    split
    · exact homogeneous.shared old kept
    · exact homogeneous.shared old kept
  refine (foldlM_ok_induction (fun rest q => (∀ b ∈ rest, b ∈ p.sharedBundles) ∧ q.Homogeneous i)
    ?_ ⟨fun b listed => List.mem_of_mem_filter listed, start⟩ success).2
  rintro b rest before after ⟨listed, current⟩ step
  obtain rfl := dissolve_eq step
  refine ⟨fun c later => listed c (List.mem_cons_of_mem _ later), ?_⟩
  exact current.fill fun c consumer _ =>
    homogeneous.shared b (listed b List.mem_cons_self) c consumer

variable {buckets : Buckets} {nested : List AssetKey} {outgoing : List BundleEdge}

theorem Homogeneous.rewired (homogeneous : p.Homogeneous i) (same : i.SameEnvironment reuser reused)
    (taken : ∀ fileType assets, buckets.get? fileType = some assets →
      ∀ x ∈ assets, i.Suits reused fileType x)
    (inherits : ∀ n ∈ nested, i.SameEnvironment reused n ∧ p.Plain n) :
    (p.rewired reused buckets nested outgoing reuser).Homogeneous i := by
  have rewires := rewires_rewired p reused buckets nested outgoing reuser
  have packed : (buckets.entries.foldl
      (fun p entry => p.packAll reuser entry.1 entry.2.toList) p).Homogeneous i :=
    homogeneous.fill fun entry listed _ x member =>
      (taken entry.1 entry.2 (KeyMap.get?_eq_some_iff.2 listed) x member).along same
  have packs : Packs p (buckets.entries.foldl
      (fun p entry => p.packAll reuser entry.1 entry.2.toList) p) :=
    .foldl (fun p entry => packs_packAll p reuser entry.1 entry.2.toList) buckets.entries p
  refine ⟨?_, ?_, ?_⟩
  · intro root plain fileType x member
    rw [plain_congr (rewires.roots.trans packs.roots.symm)] at plain
    unfold bucket Plan.buckets at member
    rw [placements_rewired] at member
    exact packed.packages root plain fileType x member
  · rw [rewires.sharedBundles]
    exact homogeneous.shared
  · intro a b pair
    rw [plain_congr rewires.roots]
    rcases mem_pairs_copyReused.1 pair with ⟨old, _⟩ | ⟨rfl, inherited, _⟩
    · exact homogeneous.reused a b old
    · obtain ⟨further, plain⟩ := inherits b inherited
      exact ⟨same.trans further, plain⟩

theorem Homogeneous.copyReused (homogeneous : p.Homogeneous i)
    (same : i.SameEnvironment reuser reused)
    (taken : ∀ fileType assets, buckets.get? fileType = some assets →
      ∀ x ∈ assets, i.Suits reused fileType x)
    (inherits : ∀ n ∈ nested, i.SameEnvironment reused n ∧ p.Plain n) :
    (p.copyReused reused buckets nested outgoing reuser).Homogeneous i := by
  have rewired : (p.rewired reused buckets nested outgoing reuser).Homogeneous i :=
    homogeneous.rewired same taken inherits
  rw [copyReused_eq]
  split
  · refine rewired.fill fun b listed _ x member => ?_
    obtain ⟨live, loads⟩ := List.mem_filter.1 listed
    exact (homogeneous.shared b (List.mem_of_mem_filter live) reused (of_decide_eq_true loads) x
      member).along same
  · refine rewired.withShared ?_
    intro b listed
    obtain ⟨old, kept, rfl⟩ := List.mem_map.1 listed
    split
    · rename_i joins
      intro c consumer x member
      rcases KeySet.mem_insert.1 consumer with rfl | before
      · exact (homogeneous.shared old kept reused joins.2 x member).along same
      · exact homogeneous.shared old kept c before x member
    · exact homogeneous.shared old kept

theorem Homogeneous.removeReused (homogeneous : p.Homogeneous i) {reusers : KeySet AssetKey}
    (reuses : ∀ reuser ∈ reusers, p.Reuses reuser reused) :
    (p.removeReused reused reusers).withGroups.Homogeneous i := by
  have copied : (p.removeReused reused reusers).roots = p.roots ∧
      (p.removeReused reused reusers).Homogeneous i := by
    refine removeReused_induction (fun q => q.roots = p.roots ∧ q.Homogeneous i)
      ⟨rfl, homogeneous⟩ ?_
    rintro q ⟨roots, current⟩ reuser listed
    obtain ⟨same, plain⟩ := homogeneous.reused reuser reused (reuses reuser listed)
    refine ⟨(copies_copyReused q reused _ _ _ reuser).roots.trans roots,
      current.copyReused same ?_ ?_⟩
    · intro fileType assets found x member
      exact homogeneous.packages reused plain fileType x (KeyMap.mem_setAt_iff.2 ⟨_, found, member⟩)
    · intro n nested
      rw [plain_congr roots]
      exact homogeneous.reused reused n (mem_reusedBy.1 nested)
  exact ⟨copied.2.packages, copied.2.shared, copied.2.reused⟩

/-- A removal copies only what suits. -/
theorem Removes.homogeneous (removes : p.Removes i group q) (homogeneous : p.Homogeneous i) :
    q.Homogeneous i := by
  rcases removes.cases with ⟨place, b, found, _, pruned⟩ | ⟨reused, reusers, _, same, pruned⟩
  · exact (homogeneous.removeShared found fun c taken => (KeySet.mem_inter.1 taken).1).prune pruned
  · exact (homogeneous.removeReused fun reuser taker => ((same reuser).1 taker).2).prune pruned

theorem homogeneous_limitRequests (homogeneous : p.Homogeneous i)
    (success : (p.limitRequests i config).result = .ok q) : q.Homogeneous i := by
  obtain ⟨_, run⟩ := removesIn_of_limitRequests success
  exact run.keeps (fun _ _ _ homogeneous removes => removes.homogeneous homogeneous) homogeneous

end Removing

/-! Placing: what waits to be packaged by a root is of its environment. -/

/-- Each asset waits for roots of its environment, single files apart. -/
def Waiting (p : Plan) (i : Index) (packing : KeyMap AssetKey (KeySet AssetKey)) : Prop :=
  ∀ x, ∀ m ∈ packing.setAt x, p.Plain m → i.SameEnvironment m x

/-- Moving assets into manual bundles makes roots wait for less. -/
theorem mem_consumers_of_extraction {e : Extraction} {packing : KeyMap AssetKey (KeySet AssetKey)}
    (success : p.extraction i config packing = .ok e) {m : AssetKey}
    (left : m ∈ e.consumers.setAt x) : m ∈ packing.setAt x := by
  refine Extraction.extraction_induction
    (fun e => ∀ x, ∀ m ∈ e.consumers.setAt x, m ∈ packing.setAt x) ?_ (fun _ _ waits => waits)
    success x m left
  intro e rule key asset consumers partition waits moves x m left
  simp only [Extraction.move, KeyMap.setAt, KeyMap.get?_insert] at left
  split at left
  · rename_i same
    subst same
    refine waits key m (KeyMap.mem_setAt_iff.2 ⟨consumers, moves.current, ?_⟩)
    exact (KeySet.mem_diff.1 left).1
  · exact waits x m left

end Plan

namespace Sharing

variable {p q : Plan} {i : Index} {config : Config} {claimed : KeySet AssetKey} {s next : Sharing}

/-- What has been placed and what is set aside suits the roots it is for. -/
structure Homogeneous (s : Sharing) (p : Plan) (i : Index) : Prop where
  roots : s.plan.roots = p.roots
  plan : s.plan.Homogeneous i
  aside : ∀ key, ∀ x ∈ s.provisional.setAt key, ∀ m ∈ key.1, i.Suits m key.2 x

theorem Homogeneous.consider {entry : AssetKey × KeySet AssetKey}
    (waiting : ∀ m ∈ entry.2, p.Plain m → i.SameEnvironment m entry.1)
    (homogeneous : s.Homogeneous p i) (success : consider i config claimed s entry = .ok next) :
    next.Homogeneous p i := by
  obtain ⟨asset, candidates, known, rfl, step⟩ := consider_cases success
  have suits : ∀ m ∈ entry.2, s.plan.Plain m → i.Suits m asset.fileType entry.1 := by
    intro m consumer plain
    rw [Plan.plain_congr homogeneous.roots] at plain
    exact ⟨waiting m consumer plain, asset, Index.asset_eq_ok_iff.1 known, rfl⟩
  rcases step with ⟨_, rfl⟩ | ⟨_, rfl⟩
  · refine ⟨(Plan.packs_packInto _ _ _ _).roots.trans homogeneous.roots,
      homogeneous.plan.packInto fun m listed => suits m (List.mem_of_mem_filter listed), ?_⟩
    intro key x aside m candidate
    rcases KeyMap.mem_setAt_update_insert.1 aside with ⟨rfl, rfl⟩ | old
    · -- a root that loads shared bundles is not entry-like, and so no single file
      obtain ⟨consumer, shares⟩ := List.mem_filter.1 candidate
      obtain ⟨r, known, plain⟩ := Plan.loadsShared_iff.1 (Bool.not_eq_true' _ ▸ shares)
      refine suits m consumer ⟨r, known, ?_⟩
      unfold Root.isEntryLike at plain
      exact (Bool.or_eq_false_iff.1 plain).2
    · exact homogeneous.aside key x old m candidate
  · exact ⟨(Plan.packs_packInto _ _ _ _).roots.trans homogeneous.roots,
      homogeneous.plan.packInto suits, homogeneous.aside⟩

theorem homogeneous_settle {entry : (List AssetKey × FileType) × KeySet AssetKey}
    (homogeneous : p.Homogeneous i)
    (suits : ∀ x ∈ entry.2, ∀ m ∈ entry.1.1, i.Suits m entry.1.2 x)
    (success : (settle i config p entry).result = .ok q) : q.Homogeneous i := by
  obtain ⟨size, _, ⟨_, rfl⟩ | ⟨_, rfl⟩⟩ := settle_cases success
  · exact homogeneous.fill fun m listed _ x member => suits x member m listed
  · refine homogeneous.withShared ?_
    intro b listed
    rcases List.mem_append.1 listed with old | new
    · exact homogeneous.shared b old
    · rw [List.mem_singleton.1 new]
      exact fun c consumer x member => suits x member c (KeySet.mem_ofList.1 consumer)

end Sharing

namespace Plan

variable {p q : Plan} {i : Index} {config : Config} {entries : List Entry}

theorem homogeneous_shareAssets {packing : KeyMap AssetKey (KeySet AssetKey)}
    {claimed : KeySet AssetKey} (homogeneous : p.Homogeneous i) (waiting : p.Waiting i packing)
    (success : (p.shareAssets i config claimed packing).result = .ok q) : q.Homogeneous i := by
  unfold shareAssets at success
  obtain ⟨s, considered, success⟩ := Report.result_bind_eq_ok.1 success
  obtain ⟨shared, settled, success⟩ := Report.result_bind_eq_ok.1 success
  cases success
  rw [Report.result_foldlM] at settled
  have set : s.Homogeneous p i := by
    refine (foldlM_ok_induction (fun rest s => (∀ c ∈ rest, packing.get? c.1 = some c.2) ∧
      s.Homogeneous p i) ?_ ⟨fun c listed => KeyMap.get?_eq_some_iff.2 listed, rfl, homogeneous, ?_⟩
      considered).2
    · rintro entry rest before after ⟨listed, current⟩ step
      have found := listed entry List.mem_cons_self
      refine ⟨fun c later => listed c (List.mem_cons_of_mem _ later), current.consider ?_ step⟩
      exact fun m consumer => waiting entry.1 m (KeyMap.mem_setAt_iff.2 ⟨entry.2, found, consumer⟩)
    · intro key x aside
      exact absurd aside (KeySet.not_mem_empty x)
  refine (foldlM_ok_induction (fun rest q => (∀ c ∈ rest, c ∈ s.provisional.entries) ∧
    q.Homogeneous i) ?_ ⟨fun c listed => listed, set.plan⟩ settled).2
  rintro entry rest before after ⟨listed, current⟩ step
  refine ⟨fun c later => listed c (List.mem_cons_of_mem _ later),
    Sharing.homogeneous_settle current ?_ step⟩
  intro x member
  have found := KeyMap.get?_eq_some_iff.2 (listed entry List.mem_cons_self)
  exact set.aside entry.1 x (KeyMap.mem_setAt_iff.2 ⟨entry.2, found, member⟩)

/-- The plan in which all assets have been placed. -/
theorem homogeneous_of_places (inside : i.ResolvesInside) (byId : i.EnvironmentsById)
    {placed : Plan} (places : i.Places config entries placed) : placed.Homogeneous i := by
  obtain ⟨target, walked, reach, packing, extracted, e, walks, consumed, moved, shared⟩ :=
    places.passes
  obtain ⟨rfl, rfl⟩ := Index.walkedPlan_ok walks
  obtain ⟨_, _, _, _, packs⟩ := isPacking_of_consumers consumed
  unfold extractManualBundles at moved
  obtain ⟨_, extraction, moved⟩ := Report.result_bind_eq_ok.1 moved
  cases moved
  refine homogeneous_shareAssets ⟨?_, ?_, ?_⟩ ?_ shared
  · intro root _ fileType x none
    exact absurd none (KeySet.not_mem_empty x)
  · intro b none
    cases none
  · intro a b reuses
    obtain ⟨same, other, isRoot, _, several⟩ := Index.plain_of_reuse inside byId reuses
    exact ⟨same, other, isRoot, several⟩
  · rintro x m left ⟨r, known, several⟩
    have reached := ((packs x m).1 (mem_consumers_of_extraction extraction left)).1
    obtain ⟨other, isRoot, path⟩ := Index.mem_reachedBy.1 reached
    cases known.symm.trans isRoot
    exact (Index.sameEnvironment_of_walk inside byId known several path).1

end Plan

/-- An index numbers the environments of a graph by their ids. -/
theorem Index.indexed_env {g : AssetGraph} {k : AssetKey} {s : IndexedAsset}
    (indexed : (ofGraph g).indexed? k = some s) : s.envId = s.asset.env.id := by
  obtain ⟨id, made⟩ := indexed_of_ofGraph indexed
  unfold indexedOfGraph? at made
  obtain ⟨_, _, rfl⟩ := Option.map_eq_some_iff.1 made
  rfl

theorem Index.environmentsById_ofGraph {g : AssetGraph}
    (distinct : ∀ a b, .asset a ∈ g.nodes → .asset b ∈ g.nodes → a.env.id = b.env.id →
      a.env = b.env) : (ofGraph g).EnvironmentsById := by
  intro a b s t left right same
  rw [indexed_env left, indexed_env right] at same
  exact distinct s.asset t.asset (asset_mem_nodes left) (asset_mem_nodes right) same

/-- What suits a root of a graph, in terms of the asset and of the root. -/
theorem Index.Suits.asset {g : AssetGraph} {entries : List Entry} {root x : AssetKey}
    {fileType : FileType} (suits : (ofGraph g).Suits root fileType x) {r : Root}
    (known : ((ofGraph g).roots entries).get? root = some r) :
    ∃ asset, (ofGraph g).asset? x = some asset ∧ asset.fileType = fileType ∧
      asset.env.id = r.env.id := by
  obtain ⟨⟨id, left, right⟩, asset, isAsset, type⟩ := suits
  obtain ⟨s, isRoot, env⟩ := indexed_of_root known
  obtain ⟨t, indexed, rfl⟩ := Option.map_eq_some_iff.1 isAsset
  refine ⟨t.asset, isAsset, type, ?_⟩
  unfold envId? at left right
  rw [isRoot, Option.map_some, Option.some_inj, indexed_env isRoot] at left
  rw [indexed, Option.map_some, Option.some_inj, indexed_env indexed] at right
  rw [right, ← env, left]

/-- The bundles of a plan that is returned, where different environments of the graph have different
ids. A root that is not a single file packages as a type only assets of that type and of its own
environment, and a live shared bundle holds only assets of its type and of the environment of every
root that loads it. -/
theorem bundles_are_homogeneous (g : AssetGraph) (config : Config) (entries : List Entry) (p : Plan)
    (distinct : ∀ a b, .asset a ∈ g.nodes → .asset b ∈ g.nodes → a.env.id = b.env.id →
      a.env = b.env)
    (success : ((Index.ofGraph g).planTarget config entries).result = .ok p) :
    (∀ root r, p.root? root = some r → r.isSingleFile = false →
      ∀ fileType, ∀ x ∈ p.bucket root fileType, ∃ asset, (Index.ofGraph g).asset? x = some asset ∧
        asset.fileType = fileType ∧ asset.env.id = r.env.id) ∧
    ∀ b ∈ p.liveSharedBundles, ∀ c ∈ b.consumers, ∃ r, p.root? c = some r ∧
      ∀ x ∈ b.assets, ∃ asset, (Index.ofGraph g).asset? x = some asset ∧
        asset.fileType = b.fileType ∧ asset.env.id = r.env.id := by
  have sameRoots := Index.roots_of_planTarget success
  have known {k : AssetKey} {r : Root} (isRoot : p.root? k = some r) :
      ((Index.ofGraph g).roots entries).get? k = some r := by
    rw [← sameRoots]
    exact isRoot
  obtain ⟨placed, places, limited⟩ := Index.places_of_planTarget success
  have homogeneous : p.Homogeneous (Index.ofGraph g) := Plan.homogeneous_limitRequests
    (Plan.homogeneous_of_places Index.resolvesInside_ofGraph
      (Index.environmentsById_ofGraph distinct) places) limited
  obtain ⟨well, several⟩ := Plan.sharesWell_of_places places
  obtain ⟨well, _⟩ := Plan.sharesWell_limitRequests well several
    (Plan.rootsReuse_of_places places) limited
  constructor
  · intro root r isRoot single fileType x packed
    exact (homogeneous.packages root ⟨r, isRoot, single⟩ fileType x packed).asset (known isRoot)
  · intro b live c consumer
    have listed := (List.mem_filter.1 live).1
    obtain ⟨r, isRoot, _⟩ := (well.fit b listed).consumers c consumer
    exact ⟨r, isRoot,
      fun x has => (homogeneous.shared b listed c consumer x has).asset (known isRoot)⟩

/-- The page `a` needs the page `b` at once, which needs a library and a style sheet. A worker has a
tool of its own. -/
def pagesAndWorker : AssetGraph :=
  let dependency (id : String) (priority : Priority) : AssetGraph.Node :=
    .dependency { id, specifier := id, priority }
  let worker : Environment := { context := .webWorker }
  { nodes := [.root, .dependency { id := "entry", specifier := "index", isEntry := true },
      .asset { id := "index" }, dependency "load a" .lazy, .asset { id := "a" },
      dependency "load b" .lazy, .asset { id := "b" }, dependency "a to b" .sync,
      dependency "b to lib" .sync, .asset { id := "lib" }, dependency "b to style" .sync,
      .asset { id := "style", fileType := .css }, dependency "index to worker" .sync,
      .asset { id := "worker", env := worker }, dependency "worker to tool" .sync,
      .asset { id := "tool", env := worker }, dependency "a to skin" .sync,
      .asset { id := "skin", fileType := .css }]
    edges := [(0, 1), (1, 2), (2, 3), (3, 4), (2, 5), (5, 6), (4, 7), (7, 6), (6, 8), (8, 9),
      (6, 10), (10, 11), (2, 12), (12, 13), (13, 14), (14, 15), (4, 16), (16, 17)] }

def pagesAndWorkerEntries : List Entry :=
  [⟨{ id := "entry", specifier := "index", isEntry := true }, 2, {}⟩]

/-- The page `b` is copied into the page `a`, its code into the code and its style sheet into the
style sheet. -/
theorem pagesAndWorker_homogeneous :
    ∃ p, ((Index.ofGraph pagesAndWorker).planTarget { maxParallelRequests := 2 }
        pagesAndWorkerEntries).result = .ok p ∧
      p.placements = .ofList [
        (0, .ofList [(.css, .ofList [4, 5]), (.js, .ofList [0, 1, 3])]),
        (1, .ofList [(.css, .ofList [5]), (.js, .ofList [1, 3])]),
        (2, .ofList [(.js, .ofList [2])]), (7, .ofList [(.js, .ofList [6, 7])])] ∧
      ∀ root r, p.root? root = some r → r.isSingleFile = false →
        ∀ fileType, ∀ x ∈ p.bucket root fileType, ∃ asset,
          (Index.ofGraph pagesAndWorker).asset? x = some asset ∧ asset.fileType = fileType ∧
            asset.env.id = r.env.id := by
  have returns : ((Index.ofGraph pagesAndWorker).planTarget { maxParallelRequests := 2 }
      pagesAndWorkerEntries).result.map Plan.placements = .ok (.ofList [
        (0, .ofList [(.css, .ofList [4, 5]), (.js, .ofList [0, 1, 3])]),
        (1, .ofList [(.css, .ofList [5]), (.js, .ofList [1, 3])]),
        (2, .ofList [(.js, .ofList [2])]), (7, .ofList [(.js, .ofList [6, 7])])]) := by
    decide +kernel
  obtain ⟨p, success, placements⟩ := map_eq_ok_iff.1 returns
  have distinct : ∀ a ∈ pagesAndWorker.nodes.filterMap AssetGraph.Node.asset?,
      ∀ b ∈ pagesAndWorker.nodes.filterMap AssetGraph.Node.asset?, a.env.id = b.env.id →
        a.env = b.env := by decide +kernel
  have listed {a : Asset} (member : .asset a ∈ pagesAndWorker.nodes) :
      a ∈ pagesAndWorker.nodes.filterMap AssetGraph.Node.asset? :=
    List.mem_filterMap.2 ⟨_, member, rfl⟩
  exact ⟨p, success, placements, (bundles_are_homogeneous pagesAndWorker _ _ p
    (fun a b left right => distinct a (listed left) b (listed right)) success).1⟩

end CodeSplit
