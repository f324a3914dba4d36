import CodeSplit.Proofs.PassProgress

/-!
Placing assets is an exact partition. A root that needs an asset has it in its own bundles or in one
shared bundle, never in both, and a root that does not need it has it nowhere. Which of the two it
is follows from the asset, from the roots that need it and from the size of all assets that are
alike in both, since a shared bundle that would be too small is dissolved.
-/
namespace CodeSplit

theorem Index.eq_total_of_totalSize {i : Index} {ks : KeySet AssetKey} {size : Nat}
    (measured : i.totalSize ks = .ok size) : size = total (ks.toList.map i.weight) := by
  obtain ⟨sizes, each, _⟩ := map_eq_ok_iff.1 measured
  have known : ∀ k ∈ ks, i.Known k := by
    intro k member
    obtain ⟨_, _, found⟩ := exists_of_mem_mapM each member
    obtain ⟨asset, isAsset, _⟩ := map_eq_ok_iff.1 found
    exact ⟨asset, isAsset⟩
  rw [totalSize_eq_total known] at measured
  cases measured
  rfl

/-- Of elements that exclude each other one is left, if there is one at all. -/
theorem length_filter_eq_one {α : Type} {keep : α → Bool} {xs : List α}
    (exclusive : xs.Pairwise fun a b => ¬(keep a = true ∧ keep b = true)) {a : α} (listed : a ∈ xs)
    (kept : keep a = true) : (xs.filter keep).length = 1 := by
  have apart := exclusive.filter keep
  have member : a ∈ xs.filter keep := List.mem_filter.2 ⟨listed, kept⟩
  have all : ∀ b ∈ xs.filter keep, keep b = true := fun b left => (List.mem_filter.1 left).2
  revert apart member all
  cases xs.filter keep with
  | nil => simp
  | cons b rest =>
    cases rest with
    | nil => simp
    | cons c rest => simp +contextual

theorem exists_of_length_filter {α : Type} {keep : α → Bool} {xs : List α}
    (one : (xs.filter keep).length = 1) : ∃ a ∈ xs, keep a = true := by
  obtain ⟨a, only⟩ := List.length_eq_one_iff.1 one
  exact ⟨a, List.mem_filter.1 (only ▸ List.mem_singleton_self a)⟩

namespace Plan

section Sharers

variable (p : Plan) (i : Index) (config : Config) (claimed : KeySet AssetKey)
  (packing : KeyMap AssetKey (KeySet AssetKey)) (x : AssetKey)

/-- The roots that share an asset, if it is shared: those that need it and are not entry-like. -/
def sharers : KeySet AssetKey :=
  (packing.setAt x).filter fun r => (p.root? r).any fun root => !root.isEntryLike

/-- The asset is to be shared, whatever the size of the bundle that this makes. -/
def MayShare : Prop :=
  config.disableSharedBundles = false ∧ x ∉ claimed ∧ p.root? x = none ∧
    (i.asset? x).any Asset.isSplittable = true ∧
    max 2 config.minBundles ≤ (p.sharers packing x).size

instance : Decidable (p.MayShare i config claimed packing x) :=
  inferInstanceAs (Decidable (_ ∧ _ ∧ _ ∧ _ ∧ _))

/-- The assets to be shared by the same roots as an asset that are of its type. -/
def companions : KeySet AssetKey :=
  .ofList (packing.keys.filter fun y => decide (p.MayShare i config claimed packing y ∧
    p.sharers packing y = p.sharers packing x ∧
    (i.asset? y).map Asset.fileType = (i.asset? x).map Asset.fileType))

/-- The asset is to be shared, and the bundle that this makes is large enough. -/
def IsShared : Prop :=
  p.MayShare i config claimed packing x ∧
    config.minBundleSize ≤ total ((p.companions i config claimed packing x).toList.map i.weight)

/-- The asset is to be shared by these roots, as an asset of this type. -/
def SharedUnder (key : List AssetKey × FileType) : Prop :=
  p.MayShare i config claimed packing x ∧
    ∃ asset, i.asset? x = some asset ∧ key = ((p.sharers packing x).toList, asset.fileType)

/-- The asset is needed by the root and not shared by it, and this is the type it has there. -/
def PackedInto (r : AssetKey) (type : FileType) : Prop :=
  r ∈ packing.setAt x ∧
    (∃ asset, i.asset? x = some asset ∧ p.bucketType r asset.fileType = type) ∧
    ¬(p.MayShare i config claimed packing x ∧ r ∈ p.sharers packing x)

end Sharers

variable {p q : Plan} {i : Index} {config : Config} {claimed : KeySet AssetKey}
  {packing : KeyMap AssetKey (KeySet AssetKey)} {k r x y : AssetKey}

theorem mem_sharers : r ∈ p.sharers packing x ↔ r ∈ packing.setAt x ∧ p.LoadsShared r := by
  unfold sharers LoadsShared
  rw [KeySet.mem_filter, Option.any_eq_true]
  simp

/-- The roots that an asset is set aside for. -/
theorem toList_sharers (same : q.roots = p.roots) :
    (p.sharers packing x).toList =
      (packing.setAt x).toList.filter fun r => !q.packagesDirectly r := by
  unfold sharers packagesDirectly root?
  rw [same]
  refine List.filter_congr fun r _ => ?_
  cases p.roots.get? r with
  | none => rfl
  | some root => rfl

theorem isShareable_iff_mayShare (same : q.roots = p.roots) {asset : Asset}
    (isAsset : i.asset? x = some asset) :
    q.isShareable config claimed x asset (p.sharers packing x).toList = true ↔
      p.MayShare i config claimed packing x := by
  rw [Sharing.isShareable_iff, MayShare, isAsset, root?, root?, same, Config.sharedThreshold,
    Nat.max_comm]
  rfl

/-- An asset that is to be shared is needed by some root. -/
theorem MayShare.needed (may : p.MayShare i config claimed packing x) :
    ∃ r, r ∈ packing.setAt x := by
  obtain ⟨_, _, _, _, enough⟩ := may
  have some : 0 < (p.sharers packing x).toList.length := by
    unfold KeySet.size at enough
    omega
  obtain ⟨r, listed⟩ := List.exists_mem_of_length_pos some
  exact ⟨r, (mem_sharers.1 listed).1⟩

theorem SharedUnder.unique {key other : List AssetKey × FileType}
    (left : p.SharedUnder i config claimed packing x key)
    (right : p.SharedUnder i config claimed packing x other) : key = other := by
  obtain ⟨_, asset, isAsset, rfl⟩ := left
  obtain ⟨_, same, isSame, rfl⟩ := right
  cases isAsset.symm.trans isSame
  rfl

theorem MayShare.exists_sharedUnder (may : p.MayShare i config claimed packing x) :
    ∃ key, p.SharedUnder i config claimed packing x key := by
  obtain ⟨asset, isAsset, _⟩ := (Option.any_eq_true _ _).1 may.2.2.2.1
  exact ⟨_, may, asset, isAsset, rfl⟩

/-- The companions of an asset are those that are set aside with it. -/
theorem mem_companions {key : List AssetKey × FileType}
    (aside : p.SharedUnder i config claimed packing x key) :
    y ∈ p.companions i config claimed packing x ↔ p.SharedUnder i config claimed packing y key := by
  obtain ⟨_, asset, isAsset, rfl⟩ := aside
  unfold companions SharedUnder
  rw [KeySet.mem_ofList, List.mem_filter, decide_eq_true_eq, isAsset, Option.map_some,
    Option.map_eq_some_iff]
  constructor
  · rintro ⟨_, may, sameRoots, other, isOther, sameType⟩
    exact ⟨may, other, isOther, by rw [sameRoots, sameType]⟩
  · rintro ⟨may, other, isOther, same⟩
    obtain ⟨r, needs⟩ := may.needed
    obtain ⟨roots, found, _⟩ := KeyMap.mem_setAt_iff.1 needs
    have sameRoots : p.sharers packing x = p.sharers packing y :=
      KeySet.ext fun z => by
        show z ∈ (p.sharers packing x).toList ↔ z ∈ (p.sharers packing y).toList
        rw [(Prod.mk.inj same).1]
    exact ⟨KeyMap.mem_keys_iff.2 ⟨roots, found⟩, may, sameRoots.symm, other, isOther,
      (Prod.mk.inj same).2.symm⟩

end Plan

namespace Sharing

open Plan

variable {p q : Plan} {i : Index} {config : Config} {claimed : KeySet AssetKey}
  {packing : KeyMap AssetKey (KeySet AssetKey)} {s next : Sharing} {k r x : AssetKey}

/-- While assets are considered one by one, each one whose turn has come is where it belongs: set
aside for the roots that share it, and in the bundles of all others that need it. -/
structure Considered (p : Plan) (i : Index) (config : Config) (claimed : KeySet AssetKey)
    (packing : KeyMap AssetKey (KeySet AssetKey)) (rest : List (AssetKey × KeySet AssetKey))
    (s : Sharing) : Prop where
  packs : Packs p s.plan
  listed : ∀ c ∈ rest, packing.get? c.1 = some c.2
  distinct : (rest.map Prod.fst).Nodup
  nonempty : ∀ key assets, s.provisional.get? key = some assets → ∃ x, x ∈ assets
  aside : ∀ key x, x ∈ s.provisional.setAt key ↔
    x ∉ rest.map Prod.fst ∧ p.SharedUnder i config claimed packing x key
  buckets : ∀ r type x, x ∈ s.plan.bucket r type ↔
    x ∉ rest.map Prod.fst ∧ p.PackedInto i config claimed packing x r type

/-- What was so of the assets whose turn had come is so of one more. -/
theorem turn_iff {rest : List AssetKey} {now : Prop} (holds : AssetKey → Prop) (fresh : k ∉ rest)
    (here : now ↔ holds k) : (x = k ∧ now) ∨ (x ∉ k :: rest ∧ holds x) ↔ x ∉ rest ∧ holds x := by
  rw [List.mem_cons, not_or]
  by_cases same : x = k
  · subst same
    simp [fresh, here]
  · simp [same]

/-- The bundles once the asset whose turn it is has been packed into those roots that need it and do
not share it. -/
theorem Considered.mem_bucket_packInto {entry : AssetKey × KeySet AssetKey}
    {rest : List (AssetKey × KeySet AssetKey)}
    (considered : Considered p i config claimed packing (entry :: rest) s) {asset : Asset}
    (isAsset : i.asset? entry.1 = some asset) {roots : List AssetKey}
    (among : r ∈ roots ↔ r ∈ packing.setAt entry.1 ∧
      ¬(p.MayShare i config claimed packing entry.1 ∧ r ∈ p.sharers packing entry.1))
    (type : FileType) :
    x ∈ (s.plan.packInto roots asset.fileType entry.1).bucket r type ↔
      x ∉ rest.map Prod.fst ∧ p.PackedInto i config claimed packing x r type := by
  have fresh := (List.nodup_cons.1 considered.distinct).1
  have here : r ∈ roots ∧ p.bucketType r asset.fileType = type ↔
      p.PackedInto i config claimed packing entry.1 r type := by
    unfold PackedInto
    rw [among, isAsset]
    simp only [Option.some_inj, exists_eq_left']
    tauto
  rw [packInto_eq_foldl, mem_bucket_foldl, considered.buckets,
    bucketType_congr considered.packs.roots,
    ← turn_iff (fun x => p.PackedInto i config claimed packing x r type) fresh here, List.map_cons]
  refine or_congr_left ?_
  constructor
  · rintro ⟨_, listed, rfl, same, now⟩
    exact ⟨List.mem_singleton.1 now, listed, same⟩
  · rintro ⟨rfl, listed, same⟩
    exact ⟨r, listed, rfl, same, List.mem_singleton_self _⟩

theorem Considered.step {entry : AssetKey × KeySet AssetKey}
    {rest : List (AssetKey × KeySet AssetKey)}
    (considered : Considered p i config claimed packing (entry :: rest) s)
    (success : consider i config claimed s entry = .ok next) :
    Considered p i config claimed packing rest next := by
  have waiting : packing.setAt entry.1 = entry.2 := by
    rw [KeyMap.setAt, considered.listed entry List.mem_cons_self, Option.getD_some]
  have listed : ∀ c ∈ rest, packing.get? c.1 = some c.2 :=
    fun c member => considered.listed c (List.mem_cons_of_mem _ member)
  obtain ⟨fresh, distinct⟩ := List.nodup_cons.1 considered.distinct
  have same := considered.packs.roots
  obtain ⟨asset, candidates, isAsset, areCandidates, outcome⟩ := consider_cases success
  have isAsset := Index.asset_eq_ok_iff.1 isAsset
  rw [← waiting, ← toList_sharers same] at areCandidates
  subst areCandidates
  have under (key : List AssetKey × FileType) :
      p.SharedUnder i config claimed packing entry.1 key ↔
        p.MayShare i config claimed packing entry.1 ∧
          key = ((p.sharers packing entry.1).toList, asset.fileType) := by
    unfold SharedUnder
    simp [isAsset]
  rcases outcome with ⟨shareable, rfl⟩ | ⟨unshareable, rfl⟩
  · have may := (isShareable_iff_mayShare same isAsset).1 shareable
    refine ⟨considered.packs.trans (packs_packInto _ _ _ _), listed, distinct, ?_, ?_, ?_⟩
    · intro key assets found
      rw [KeyMap.get?_update] at found
      split at found
      · cases found
        exact ⟨entry.1, KeySet.mem_insert.2 (.inl rfl)⟩
      · exact considered.nonempty key assets found
    · intro key x
      rw [KeyMap.mem_setAt_update_insert, considered.aside, List.map_cons,
        ← turn_iff (fun x => p.SharedUnder i config claimed packing x key) fresh (under key).symm]
      simp [may, and_comm]
    · intro r type x
      refine considered.mem_bucket_packInto isAsset ?_ type
      rw [List.mem_filter, mem_sharers, ← loadsShared_iff, waiting]
      unfold packagesDirectly root?
      simp only [may, same, true_and, not_and, Bool.not_eq_false]
      exact and_congr_right fun needs => ⟨fun direct _ => direct, fun direct => direct needs⟩
  · have mayNot : ¬p.MayShare i config claimed packing entry.1 := by
      rw [← isShareable_iff_mayShare same isAsset, unshareable]
      exact Bool.false_ne_true
    refine ⟨considered.packs.trans (packs_packInto _ _ _ _), listed, distinct, considered.nonempty,
      ?_, ?_⟩
    · intro key x
      rw [considered.aside, List.map_cons,
        ← turn_iff (fun x => p.SharedUnder i config claimed packing x key) fresh (under key).symm]
      simp [mayNot]
    · intro r type x
      refine considered.mem_bucket_packInto isAsset ?_ type
      rw [waiting]
      exact ⟨fun needs => ⟨needs, fun shares => mayNot shares.1⟩, And.left⟩

/-- The bundle made of what was set aside for some roots. -/
def bundleOf (i : Index) (entry : (List AssetKey × FileType) × KeySet AssetKey) : SharedBundle where
  fileType := entry.1.2
  assets := entry.2
  consumers := .ofList entry.1.1
  size := total (entry.2.toList.map i.weight)

/-- Whether that bundle is made. -/
def isLarge (i : Index) (config : Config) (entry : (List AssetKey × FileType) × KeySet AssetKey) :
    Bool :=
  config.minBundleSize ≤ (bundleOf i entry).size

/-- Settling makes a bundle of each set that is large, and packs every other one into its roots. -/
theorem settle_all {entries : List ((List AssetKey × FileType) × KeySet AssetKey)}
    (success : entries.foldlM (fun p e => (settle i config p e).result) p = .ok q) :
    q.roots = p.roots ∧
      q.sharedBundles = p.sharedBundles ++ (entries.filter (isLarge i config)).map (bundleOf i) ∧
      ∀ r type x, x ∈ q.bucket r type ↔
        (∃ e ∈ entries, isLarge i config e = false ∧ r ∈ e.1.1 ∧ p.bucketType r e.1.2 = type ∧
          x ∈ e.2) ∨ x ∈ p.bucket r type := by
  induction entries generalizing p with
  | nil =>
    cases success
    simp
  | cons entry rest ih =>
    rw [List.foldlM_cons] at success
    obtain ⟨middle, step, success⟩ := bind_eq_ok_iff.1 success
    obtain ⟨roots, shared, buckets⟩ := ih success
    obtain ⟨size, measured, outcome⟩ := settle_cases step
    have sized : size = (bundleOf i entry).size := Index.eq_total_of_totalSize measured
    rcases outcome with ⟨small, rfl⟩ | ⟨large, rfl⟩
    · have packs := packs_packAll_each p entry.1.1 entry.1.2 entry.2.toList
      have dissolved : isLarge i config entry = false := decide_eq_false (by omega)
      refine ⟨roots.trans packs.roots, ?_, ?_⟩
      · rw [shared, packs.sharedBundles, List.filter_cons_of_neg (by simp [dissolved])]
      · intro r type x
        have packed :
            (∃ a ∈ entry.1.1, a = r ∧ p.bucketType r entry.1.2 = type ∧ x ∈ entry.2.toList) ↔
              r ∈ entry.1.1 ∧ p.bucketType r entry.1.2 = type ∧ x ∈ entry.2 := by
          constructor
          · rintro ⟨_, listed, rfl, held⟩
            exact ⟨listed, held⟩
          · rintro ⟨listed, held⟩
            exact ⟨r, listed, rfl, held⟩
        rw [buckets, mem_bucket_foldl, packed, List.exists_mem_cons_iff]
        simp only [bucketType_congr packs.roots, dissolved, true_and]
        rw [or_left_comm, or_assoc]
    · have made : isLarge i config entry = true := decide_eq_true (by omega)
      refine ⟨roots, ?_, ?_⟩
      · rw [shared, List.filter_cons_of_pos made, sized]
        simp [bundleOf]
      · intro r type x
        rw [buckets, List.exists_mem_cons_iff]
        simp only [made, Bool.true_eq_false, false_and, false_or]
        rfl

/-- What was set aside is to be shared by the roots that it was set aside for. -/
theorem Considered.sharedUnder {entry : (List AssetKey × FileType) × KeySet AssetKey}
    (considered : Considered p i config claimed packing [] s)
    (listed : entry ∈ s.provisional.entries) (member : x ∈ entry.2) :
    p.SharedUnder i config claimed packing x entry.1 :=
  ((considered.aside entry.1 x).1
    (KeyMap.mem_setAt_iff.2 ⟨entry.2, KeyMap.get?_eq_some_iff.2 listed, member⟩)).2

theorem Considered.exists_entry {key : List AssetKey × FileType}
    (considered : Considered p i config claimed packing [] s)
    (under : p.SharedUnder i config claimed packing x key) :
    ∃ entry ∈ s.provisional.entries, entry.1 = key ∧ x ∈ entry.2 := by
  have aside := (considered.aside key x).2 ⟨List.not_mem_nil, under⟩
  obtain ⟨assets, found, member⟩ := KeyMap.mem_setAt_iff.1 aside
  exact ⟨(key, assets), KeyMap.get?_eq_some_iff.1 found, rfl, member⟩

/-- A bundle is made of an asset and of what was set aside with it exactly if they are large enough:
these are its companions. -/
theorem Considered.isLarge_iff {entry : (List AssetKey × FileType) × KeySet AssetKey}
    (considered : Considered p i config claimed packing [] s)
    (listed : entry ∈ s.provisional.entries) (member : x ∈ entry.2) :
    isLarge i config entry = true ↔ p.IsShared i config claimed packing x := by
  have under := considered.sharedUnder listed member
  have together : entry.2 = p.companions i config claimed packing x := by
    refine KeySet.ext fun y => ?_
    rw [mem_companions under]
    constructor
    · exact considered.sharedUnder listed
    · intro underToo
      obtain ⟨other, listedToo, same, memberToo⟩ := considered.exists_entry underToo
      have found := KeyMap.get?_eq_some_iff.2 listed
      rw [← same, KeyMap.get?_eq_some_iff.2 listedToo] at found
      rwa [Option.some.inj found] at memberToo
  unfold isLarge bundleOf IsShared
  rw [decide_eq_true_eq, together]
  exact (and_iff_right under.1).symm

end Sharing

namespace Plan

variable {p q : Plan} {i : Index} {config : Config} {claimed : KeySet AssetKey}
  {packing : KeyMap AssetKey (KeySet AssetKey)} {r x : AssetKey}

/-- Where every asset is once all are placed, as far as the assets themselves say it. -/
structure Partitioned (p : Plan) (i : Index) (config : Config) (claimed : KeySet AssetKey)
    (packing : KeyMap AssetKey (KeySet AssetKey)) (q : Plan) : Prop where
  roots : q.roots = p.roots
  known : ∀ x r, r ∈ packing.setAt x → i.Known x
  packed : ∀ r type x, x ∈ q.bucket r type ↔ r ∈ packing.setAt x ∧
    (∃ asset, i.asset? x = some asset ∧ p.bucketType r asset.fileType = type) ∧
    ¬(p.IsShared i config claimed packing x ∧ r ∈ p.sharers packing x)
  nonempty : ∀ b ∈ q.sharedBundles, ∃ x, x ∈ b.assets
  made : ∀ x, p.IsShared i config claimed packing x → ∃ b ∈ q.sharedBundles, x ∈ b.assets
  shared : ∀ b ∈ q.sharedBundles, ∀ x ∈ b.assets,
    p.IsShared i config claimed packing x ∧ b.consumers = p.sharers packing x
  apart : q.sharedBundles.Pairwise fun a b => Apart a.assets b.assets

theorem considered_of_foldlM {s : Sharing} (unplaced : p.placements = ∅)
    (success : packing.entries.foldlM (Sharing.consider i config claimed) ⟨p, ∅, 0⟩ = .ok s) :
    Sharing.Considered p i config claimed packing [] s := by
  refine foldlM_ok_induction (Sharing.Considered p i config claimed packing)
    (fun _ _ _ _ considered step => considered.step step) ?_ success
  -- what no root needs is not placed, and of the rest the turn is still to come
  have coming {r x : AssetKey} (needs : r ∈ packing.setAt x) :
      x ∈ packing.entries.map Prod.fst := by
    obtain ⟨roots, found, _⟩ := KeyMap.mem_setAt_iff.1 needs
    exact KeyMap.mem_keys_iff.2 ⟨roots, found⟩
  refine ⟨.refl p, fun c listed => KeyMap.get?_eq_some_iff.2 listed, packing.nodup_keys,
    fun key assets none => (by cases none), ?_, ?_⟩
  · intro key x
    refine iff_of_false (KeySet.not_mem_empty x) ?_
    rintro ⟨later, may, _⟩
    obtain ⟨r, needs⟩ := may.needed
    exact later (coming needs)
  · intro r type x
    refine iff_of_false ?_ fun packed => packed.1 (coming packed.2.1)
    unfold bucket buckets
    rw [unplaced]
    exact KeySet.not_mem_empty x

theorem partitioned_of_shareAssets (unplaced : p.placements = ∅) (unshared : p.sharedBundles = [])
    (success : (p.shareAssets i config claimed packing).result = .ok q) :
    Partitioned p i config claimed packing q := by
  unfold shareAssets at success
  obtain ⟨s, fold, success⟩ := Report.result_bind_eq_ok.1 success
  obtain ⟨_, settled, success⟩ := Report.result_bind_eq_ok.1 success
  cases success
  rw [Report.result_foldlM] at settled
  have considered := considered_of_foldlM unplaced fold
  obtain ⟨roots, bundles, buckets⟩ := Sharing.settle_all settled
  rw [considered.packs.sharedBundles, unshared, List.nil_append] at bundles
  refine ⟨roots.trans considered.packs.roots, ?_, ?_, ?_, ?_, ?_, ?_⟩
  · intro x r needs
    obtain ⟨consumers, found, _⟩ := KeyMap.mem_setAt_iff.1 needs
    refine foldlM_ok_each (fun entry _ => i.Known entry.1) ?_ fold (x, consumers)
      (KeyMap.get?_eq_some_iff.1 found)
    intro entry before after step
    obtain ⟨asset, _, isAsset, _⟩ := Sharing.consider_cases step
    exact ⟨⟨asset, isAsset⟩, fun _ known => known⟩
  · intro r type x
    rw [buckets, considered.buckets]
    simp only [bucketType_congr considered.packs.roots]
    constructor
    · rintro (⟨e, listed, small, consumer, same, member⟩ | ⟨_, needs, asset, own⟩)
      · obtain ⟨_, asset, isAsset, key⟩ := considered.sharedUnder listed member
        rw [key] at consumer same
        refine ⟨(mem_sharers.1 consumer).1, ⟨asset, isAsset, same⟩, fun shares => ?_⟩
        rw [(considered.isLarge_iff listed member).2 shares.1] at small
        cases small
      · exact ⟨needs, asset, fun shares => own ⟨shares.1.1, shares.2⟩⟩
    · rintro ⟨needs, ⟨asset, isAsset, same⟩, unshared⟩
      by_cases shares : p.MayShare i config claimed packing x ∧ r ∈ p.sharers packing x
      · -- the asset was set aside for the root, and given back to it
        obtain ⟨may, consumer⟩ := shares
        obtain ⟨e, listed, key, member⟩ := considered.exists_entry ⟨may, asset, isAsset, rfl⟩
        refine .inl ⟨e, listed, ?_, by rwa [key], by rwa [key], member⟩
        rw [Bool.eq_false_iff]
        intro large
        exact unshared ⟨(considered.isLarge_iff listed member).1 large, consumer⟩
      · exact .inr ⟨List.not_mem_nil, needs, ⟨asset, isAsset, same⟩, shares⟩
  · rw [bundles]
    intro b isBundle
    obtain ⟨e, kept, rfl⟩ := List.mem_map.1 isBundle
    exact considered.nonempty e.1 e.2 (KeyMap.get?_eq_some_iff.2 (List.mem_filter.1 kept).1)
  · intro x shared
    obtain ⟨key, under⟩ := shared.1.exists_sharedUnder
    obtain ⟨e, listed, _, member⟩ := considered.exists_entry under
    have large := (considered.isLarge_iff listed member).2 shared
    rw [bundles]
    exact ⟨_, List.mem_map_of_mem (List.mem_filter.2 ⟨listed, large⟩), member⟩
  · rw [bundles]
    rintro _ isBundle x member
    obtain ⟨e, kept, rfl⟩ := List.mem_map.1 isBundle
    obtain ⟨listed, large⟩ := List.mem_filter.1 kept
    obtain ⟨_, asset, _, key⟩ := considered.sharedUnder listed member
    refine ⟨(considered.isLarge_iff listed member).1 large, KeySet.ext fun r => ?_⟩
    show r ∈ KeySet.ofList e.1.1 ↔ _
    rw [KeySet.mem_ofList, key]
    rfl
  · rw [bundles, List.pairwise_map]
    refine List.Pairwise.filter _ ((List.pairwise_map.1 s.provisional.nodup_keys).imp_of_mem ?_)
    intro left right isLeft isRight differ x onLeft onRight
    exact differ ((considered.sharedUnder isLeft onLeft).unique
      (considered.sharedUnder isRight onRight))

/-- The number of shared bundles that a root loads an asset from. -/
theorem Partitioned.length_filter_eq_one_iff
    (partitioned : Partitioned p i config claimed packing q) :
    (q.sharedBundles.filter fun b => x ∈ b.assets ∧ r ∈ b.consumers).length = 1 ↔
      p.IsShared i config claimed packing x ∧ r ∈ p.sharers packing x := by
  constructor
  · intro one
    obtain ⟨b, listed, loads⟩ := exists_of_length_filter one
    obtain ⟨member, consumer⟩ := of_decide_eq_true loads
    obtain ⟨shared, consumers⟩ := partitioned.shared b listed x member
    exact ⟨shared, consumers ▸ consumer⟩
  · rintro ⟨shared, consumer⟩
    obtain ⟨b, listed, member⟩ := partitioned.made x shared
    obtain ⟨_, consumers⟩ := partitioned.shared b listed x member
    refine length_filter_eq_one (partitioned.apart.imp ?_) listed
      (decide_eq_true ⟨member, consumers ▸ consumer⟩)
    rintro left right apart ⟨onLeft, onRight⟩
    exact apart x (of_decide_eq_true onLeft).1 (of_decide_eq_true onRight).1

/-- Placing the assets that roots need, for whichever roots and assets these are, gives each root
that needs an asset this asset once, in a bundle of its own or in a shared one, and no other root
gets it. What is shared, and by whom, are the assets that enough roots other than entry-like ones
need, taken together with all that the same roots share as the same type. -/
theorem shared_pass_partitions (p : Plan) (i : Index) (config : Config) (claimed : KeySet AssetKey)
    (packing : KeyMap AssetKey (KeySet AssetKey)) (unplaced : p.placements = ∅)
    (unshared : p.sharedBundles = []) (roots : ∀ r root, p.root? r = some root → i.Known r)
    (known : ∀ x consumers, packing.get? x = some consumers →
      i.Known x ∧ ∀ r ∈ consumers, ∃ root, p.root? r = some root) :
    ∃ q, (p.shareAssets i config claimed packing).result = .ok q ∧
      (∀ x asset r root, i.asset? x = some asset → p.root? r = some root →
        let inOwn := x ∈ q.bucket r (q.bucketType r asset.fileType)
        let inOneShared :=
          (q.sharedBundles.filter fun b => x ∈ b.assets ∧ r ∈ b.consumers).length = 1
        (r ∈ packing.setAt x ↔ (inOwn ∧ ¬inOneShared) ∨ (¬inOwn ∧ inOneShared)) ∧
          ¬(inOwn ∧ inOneShared)) ∧
      (∀ x, (∃ b ∈ q.sharedBundles, x ∈ b.assets) ↔
        p.MayShare i config claimed packing x ∧ config.minBundleSize ≤
          total ((p.companions i config claimed packing x).toList.map i.weight)) ∧
      ∀ b ∈ q.sharedBundles, ∀ x ∈ b.assets, b.consumers = p.sharers packing x := by
  have waits : Waits i.Known i.Known packing := by
    intro x consumers found
    obtain ⟨isKnown, areRoots⟩ := known x consumers found
    refine ⟨isKnown, fun r consumer => ?_⟩
    obtain ⟨root, isRoot⟩ := areRoots r consumer
    exact roots r root isRoot
  obtain ⟨q, success⟩ := exists_shareAssets p config claimed waits
  have partitioned := partitioned_of_shareAssets unplaced unshared success
  refine ⟨q, success, ?_, ?_, fun b listed x member => (partitioned.shared b listed x member).2⟩
  · intro x asset r root isAsset _
    have sharer : r ∈ p.sharers packing x → r ∈ packing.setAt x :=
      fun shares => (mem_sharers.1 shares).1
    simp only [partitioned.packed, partitioned.length_filter_eq_one_iff,
      bucketType_congr partitioned.roots, isAsset, Option.some_inj, exists_eq_left', true_and]
    tauto
  · intro x
    constructor
    · rintro ⟨b, listed, member⟩
      exact (partitioned.shared b listed x member).1
    · exact partitioned.made x

/-- An entry and two lazy roots. -/
def threeRoots : Plan where
  roots := .ofList [(0, { assetId := "a", triggers := { lazy := true } }),
    (1, { assetId := "b", triggers := { lazy := true } }),
    (2, { assetId := "index", triggers := { entry := true } })]

def threeRootsIndex : Index :=
  ⟨[⟨{ id := "a" }, "", []⟩, ⟨{ id := "b" }, "", []⟩, ⟨{ id := "index" }, "", []⟩,
    ⟨{ id := "library", stats := { size := 60 } }, "", []⟩,
    ⟨{ id := "style", fileType := .css, stats := { size := 10 } }, "", []⟩]⟩

/-- The lazy roots need both the library and the style, and the entry needs the library. -/
def threeRootsNeeds : KeyMap AssetKey (KeySet AssetKey) :=
  .ofList [(0, .ofList [0]), (1, .ofList [1]), (2, .ofList [2]), (3, .ofList [0, 1, 2]),
    (4, .ofList [0, 1])]

/-- The library is shared by the lazy roots and copied into the entry. The style would be shared as
well, but it makes a bundle that is too small. -/
theorem threeRoots_partition :
    ∃ q, (threeRoots.shareAssets threeRootsIndex { minBundles := 2, minBundleSize := 50 } ∅
        threeRootsNeeds).result = .ok q ∧
      (∃ b ∈ q.sharedBundles, 3 ∈ b.assets ∧ b.consumers = .ofList [0, 1]) ∧
      3 ∈ q.bucket 2 (q.bucketType 2 .js) ∧
      (¬∃ b ∈ q.sharedBundles, 4 ∈ b.assets) ∧ 4 ∈ q.bucket 0 (q.bucketType 0 .css) := by
  have rootsKnown : ∀ e ∈ threeRoots.roots.entries, (threeRootsIndex.asset? e.1).isSome = true := by
    decide
  have allKnown : ∀ e ∈ threeRootsNeeds.entries, (threeRootsIndex.asset? e.1).isSome = true ∧
      ∀ r ∈ e.2.toList, (threeRoots.root? r).isSome = true := by decide
  have known {x : AssetKey} (some : (threeRootsIndex.asset? x).isSome = true) :
      threeRootsIndex.Known x := by
    obtain ⟨asset, isAsset⟩ := Option.isSome_iff_exists.1 some
    exact ⟨asset, Index.asset_eq_ok_iff.2 isAsset⟩
  obtain ⟨q, success, each, shared, consumers⟩ := shared_pass_partitions threeRoots threeRootsIndex
    { minBundles := 2, minBundleSize := 50 } ∅ threeRootsNeeds rfl rfl
    (fun r root isRoot => known (rootsKnown (r, root) (KeyMap.get?_eq_some_iff.1 isRoot)))
    (fun x roots found => by
      obtain ⟨isAsset, areRoots⟩ := allKnown (x, roots) (KeyMap.get?_eq_some_iff.1 found)
      exact ⟨known isAsset, fun r consumer => Option.isSome_iff_exists.1 (areRoots r consumer)⟩)
  obtain ⟨b, listed, member⟩ := (shared 3).2 (by decide)
  have styleApart : ¬∃ b ∈ q.sharedBundles, 4 ∈ b.assets := by
    rw [shared 4]
    decide
  refine ⟨q, success, ⟨b, listed, member, consumers b listed 3 member⟩, ?_, styleApart, ?_⟩
  · refine (((each 3 _ 2 _ rfl rfl).1.1 (by decide)).resolve_right fun other => ?_).1
    obtain ⟨b, listed, loads⟩ := exists_of_length_filter other.2
    obtain ⟨member, consumer⟩ := of_decide_eq_true loads
    rw [consumers b listed 3 member] at consumer
    exact absurd consumer (by decide)
  · refine (((each 4 _ 0 _ rfl rfl).1.1 (by decide)).resolve_right fun other => ?_).1
    obtain ⟨b, listed, loads⟩ := exists_of_length_filter other.2
    exact styleApart ⟨b, listed, (of_decide_eq_true loads).1⟩

end Plan

end CodeSplit
