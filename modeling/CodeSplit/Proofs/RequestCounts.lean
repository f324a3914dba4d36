import CodeSplit.Proofs.PassProgress

/-!
What the removal of a shared bundle does to the number of requests. Members of the group take its
assets into buckets that they have, so the group loads one bundle less. If one consumer is left, the
bundle is dissolved into it. That can give the consumer a bucket that it did not have, but only
groups that loaded the bundle before load this bucket. So no group loads more than before.
-/
namespace CodeSplit

section Counting

variable {α : Type} {f g : α → Nat} {xs : List α}

/-- How replacing one element changes the number of those that pass a test. -/
theorem countP_set_add {place : Nat} {old : α} (found : xs[place]? = some old) (test : α → Bool)
    (new : α) : (xs.set place new).countP test + (if test old then 1 else 0) =
      xs.countP test + if test new then 1 else 0 := by
  induction xs generalizing place with
  | nil => cases found
  | cons x xs ih =>
    cases place with
    | zero =>
      cases found
      simp only [List.set_cons_zero, List.countP_cons]
      omega
    | succ place =>
      have rest := ih (by simpa using found)
      simp only [List.set_cons_succ, List.countP_cons]
      omega

theorem total_map_le_add_countP (xs : List α) {test : α → Bool}
    (each : ∀ x ∈ xs, f x ≤ g x + if test x then 1 else 0) :
    total (xs.map f) ≤ total (xs.map g) + xs.countP test := by
  induction xs with
  | nil => simp
  | cons x xs ih =>
    have first := each x List.mem_cons_self
    have rest := ih fun y later => each y (List.mem_cons_of_mem _ later)
    simp only [List.map_cons, total_cons, List.countP_cons]
    omega

end Counting

/-- Some of the members load the bundle. -/
def SharedBundle.isLoadedBy (b : SharedBundle) (members : KeySet AssetKey) : Bool :=
  b.consumers.meets members && b.alive

theorem SharedBundle.isLoadedBy_iff {b : SharedBundle} {members : KeySet AssetKey} :
    b.isLoadedBy members = true ↔ (∃ c ∈ b.consumers, c ∈ members) ∧ b.alive = true := by
  rw [isLoadedBy, Bool.and_eq_true, KeySet.meets_iff]

namespace Plan

variable {p q : Plan} {i : Index} {group root : AssetKey} {place : Nat} {b : SharedBundle}

section Buckets

theorem hasBucket_iff {type : FileType} :
    p.hasBucket root type = true ↔ ∃ x, x ∈ p.bucket root type := by
  rw [hasBucket, Bool.not_eq_true', ← Bool.not_eq_true, KeySet.isEmpty_iff]
  simp

/-- The types of the buckets that have something in them. -/
def filledTypes (p : Plan) (root : AssetKey) : List FileType :=
  ((p.buckets root).entries.filter fun e => !e.2.isEmpty).map Prod.fst

theorem length_filledTypes (p : Plan) (root : AssetKey) :
    (p.filledTypes root).length = p.bucketCount root := by
  rw [filledTypes, List.length_map, bucketCount_eq_length]

theorem nodup_filledTypes (p : Plan) (root : AssetKey) : (p.filledTypes root).Nodup :=
  (KeyMap.nodup_keys (p.buckets root)).sublist (List.filter_sublist.map _)

theorem mem_filledTypes {type : FileType} :
    type ∈ p.filledTypes root ↔ p.hasBucket root type = true := by
  simp only [filledTypes, List.mem_map, List.mem_filter]
  constructor
  · rintro ⟨e, ⟨listed, filled⟩, rfl⟩
    rw [hasBucket, bucket, KeyMap.get?_eq_some_iff.2 listed]
    exact filled
  · intro filled
    obtain ⟨x, held⟩ := hasBucket_iff.1 filled
    obtain ⟨assets, found, _⟩ := KeyMap.mem_setAt_iff.1 held
    rw [hasBucket, bucket, found] at filled
    exact ⟨(type, assets), ⟨KeyMap.get?_eq_some_iff.1 found, filled⟩, rfl⟩

/-- A root with some more buckets. -/
theorem bucketCount_le (more : List FileType) (each : ∀ type, q.hasBucket root type = true →
      p.hasBucket root type = true ∨ type ∈ more) :
    q.bucketCount root ≤ p.bucketCount root + more.length := by
  rw [← length_filledTypes, ← length_filledTypes, ← List.length_append]
  refine (nodup_filledTypes q root).length_le_of_subset ?_
  intro type filled
  rw [List.mem_append, mem_filledTypes]
  exact each type (mem_filledTypes.1 filled)

end Buckets

section Effects

/-- What pruning adds to a bucket comes from a spent bundle that the root loads. -/
theorem mem_bucket_of_prune (pruned : (p.prune i).result = .ok q) {type : FileType} {x : AssetKey}
    (held : x ∈ q.bucket root type) :
    x ∈ p.bucket root type ∨ ∃ b ∈ p.sharedBundles.filter isSpent,
      root ∈ b.consumers ∧ p.bucketType root b.fileType = type := by
  unfold prune at pruned
  simp only [Report.result_foldlM] at pruned
  let comesFrom (s : Plan) : Prop := ∀ x ∈ s.bucket root type, x ∈ p.bucket root type ∨
    ∃ b ∈ p.sharedBundles.filter isSpent, root ∈ b.consumers ∧ p.bucketType root b.fileType = type
  refine (foldlM_ok_induction (fun rest s => (∀ b ∈ rest, b ∈ p.sharedBundles.filter isSpent) ∧
    s.roots = p.roots ∧ comesFrom s) ?_ ?_ pruned).2.2 x held
  · rintro b rest before after ⟨spent, roots, known⟩ step
    obtain rfl := dissolve_eq step
    have packs := packs_packAll_each before b.consumers.toList b.fileType b.assets.toList
    refine ⟨fun c later => spent c (List.mem_cons_of_mem _ later), packs.roots.trans roots, ?_⟩
    intro y held
    rcases mem_bucket_foldl.1 held with ⟨c, consumer, rfl, same, _⟩ | old
    · rw [bucketType_congr roots] at same
      exact .inr ⟨b, spent b List.mem_cons_self, consumer, same⟩
    · exact known y old
  · exact ⟨fun _ listed => listed, rfl, fun _ => .inl⟩

/-- The consumers that a shared bundle has left when a group does without it. -/
def consumersLeft (p : Plan) (group : AssetKey) (b : SharedBundle) : KeySet AssetKey :=
  b.consumers.diff (b.consumers.inter (p.members group))

theorem mem_consumersLeft {c : AssetKey} :
    c ∈ p.consumersLeft group b ↔ c ∈ b.consumers ∧ c ∉ p.members group := by
  rw [consumersLeft, KeySet.mem_diff, KeySet.mem_inter]
  constructor
  · rintro ⟨consumer, outside⟩
    exact ⟨consumer, fun member => outside ⟨consumer, member⟩⟩
  · rintro ⟨consumer, outside⟩
    exact ⟨consumer, fun both => outside both.2⟩

/-- The bundle as it is then. It stays alive with two consumers. -/
def withoutGroup (p : Plan) (group : AssetKey) (b : SharedBundle) : SharedBundle :=
  { b with
    consumers := p.consumersLeft group b
    alive := decide (2 ≤ (p.consumersLeft group b).size) }

/-- The second plan is the first without a shared bundle of a group. The bundle is loaded by the
consumers it has left if there are two. A single one has its assets, in a bucket that may be new,
and no other root has a bucket that it did not have. -/
structure DropsShared (p : Plan) (group : AssetKey) (place : Nat) (b : SharedBundle) (q : Plan) :
    Prop where
  shape : SameShape p q
  manual : q.manualBundles = p.manualBundles
  shared : q.sharedBundles = p.sharedBundles.set place (p.withoutGroup group b)
  kept : ∀ root type, p.hasBucket root type = true → q.hasBucket root type = true
  filled : ∀ root type, q.hasBucket root type = true → p.hasBucket root type = true ∨
    ((p.consumersLeft group b).size < 2 ∧ root ∈ p.consumersLeft group b ∧
      type = p.bucketType root b.fileType)

theorem Several.not_spent (several : p.Several) {c : SharedBundle} (listed : c ∈ p.sharedBundles) :
    isSpent c = false := by
  rw [Bool.eq_false_iff]
  intro spent
  simp only [isSpent, Bool.and_eq_true, decide_eq_true_eq] at spent
  have two := several c (List.mem_filter.2 ⟨listed, spent.1⟩)
  omega

theorem Several.retired_eq (several : p.Several) : retired p.sharedBundles = p.sharedBundles := by
  unfold retired
  conv_rhs => rw [← List.map_id p.sharedBundles]
  refine List.map_congr_left ?_
  intro c listed
  rw [several.not_spent listed]
  rfl

theorem withoutGroup_eq (alive : b.alive = true) :
    (if isSpent { b with consumers := p.consumersLeft group b } = true then
      { b with consumers := p.consumersLeft group b, alive := false }
      else { b with consumers := p.consumersLeft group b }) = p.withoutGroup group b := by
  unfold withoutGroup
  by_cases few : (p.consumersLeft group b).size < 2
  · simp [isSpent, alive, few, Nat.not_le.2 few]
  · simp [isSpent, alive, few, Nat.not_lt.1 few]

/-- No other bundle is retired. -/
theorem Several.retired_set (several : p.Several) (alive : b.alive = true) (place : Nat)
    (group : AssetKey) :
    retired (p.sharedBundles.set place { b with consumers := p.consumersLeft group b }) =
      p.sharedBundles.set place (p.withoutGroup group b) := by
  have others := several.retired_eq
  unfold retired at others ⊢
  rw [List.map_set, others]
  exact congrArg (p.sharedBundles.set place) (withoutGroup_eq alive)

/-- What has been packed when a shared bundle is copied into those who take it. -/
theorem mem_bucket_removeShared (found : p.sharedBundles[place]? = some b)
    {takers : KeySet AssetKey} {type : FileType} {x : AssetKey} :
    x ∈ (p.removeShared place takers).bucket root type ↔
      (root ∈ takers ∧ p.bucketType root b.fileType = type ∧ x ∈ b.assets) ∨
        x ∈ p.bucket root type := by
  have copied : (p.removeShared place takers).bucket root type = (takers.toList.foldl
      (fun p c => p.packAll c b.fileType b.assets.toList) p).bucket root type := by
    unfold removeShared
    rw [found]
    rfl
  rw [copied, mem_bucket_foldl]
  constructor
  · rintro (⟨c, taker, rfl, same, has⟩ | old)
    · exact .inl ⟨taker, same, has⟩
    · exact .inr old
  · rintro (⟨taker, same, has⟩ | old)
    · exact .inl ⟨root, taker, rfl, same, has⟩
    · exact .inr old

theorem dropsShared_of_prune (several : p.Several) (found : p.sharedBundles[place]? = some b)
    (can : p.CanDropShared group b) (pruned :
      ((p.removeShared place (b.consumers.inter (p.members group))).prune i).result = .ok q) :
    p.DropsShared group place b q := by
  have removed := enriches_removeShared p place (b.consumers.inter (p.members group))
  have listed := sharedBundles_removeShared found (b.consumers.inter (p.members group))
  have packs := packs_prune pruned
  refine ⟨removed.toSameShape.trans (enriches_prune pruned).toSameShape, ?_, ?_, ?_, ?_⟩
  · rw [packs.manualBundles]
    exact manualBundles_removeShared p place _
  · rw [packs.sharedBundles]
    exact (congrArg retired listed).trans (several.retired_set can.alive place group)
  · intro root type filled
    obtain ⟨x, held⟩ := hasBucket_iff.1 filled
    have kept := packs.grows root type x ((mem_bucket_removeShared found).2 (.inr held))
    exact hasBucket_iff.2 ⟨x, kept⟩
  · intro root type filled
    obtain ⟨x, held⟩ := hasBucket_iff.1 filled
    rcases mem_bucket_of_prune pruned held with packed | ⟨c, spent, consumer, same⟩
    · left
      rcases (mem_bucket_removeShared found).1 packed with ⟨taker, rfl, _⟩ | old
      · obtain ⟨consumer, member⟩ := KeySet.mem_inter.1 taker
        exact can.taken root consumer member
      · exact hasBucket_iff.2 ⟨x, old⟩
    · right
      obtain ⟨isListed, spent⟩ := List.mem_filter.1 spent
      rw [listed] at isListed
      rcases List.mem_or_eq_of_mem_set isListed with old | rfl
      · rw [several.not_spent old] at spent
        cases spent
      · rw [bucketType_congr removed.roots] at same
        simp only [isSpent, Bool.and_eq_true, decide_eq_true_eq] at spent
        exact ⟨spent.2, consumer, same.symm⟩

end Effects

section Counts

theorem SameShape.members_eq (same : SameShape p q) (group : AssetKey) :
    q.members group = p.members group := by
  apply KeySet.ext
  intro m
  rw [mem_members, mem_members, same.loadsIn_iff]

/-- The members of a group whose buckets are requested. -/
def requested (p : Plan) (group : AssetKey) : List AssetKey :=
  (p.members group).toList.filter fun m => (p.root? m).any fun r => !r.isInline

theorem nodup_requested (p : Plan) (group : AssetKey) : (p.requested group).Nodup :=
  (KeySet.nodup_toList _).filter _

theorem SameShape.requested_eq (same : SameShape p q) (group : AssetKey) :
    q.requested group = p.requested group := by
  unfold requested root?
  rw [same.members_eq, same.roots]

/-- Requests are counted in three parts. -/
theorem requestCount_eq (p : Plan) (group : AssetKey) : p.requestCount group =
    total ((p.requested group).map p.bucketCount) +
      p.sharedBundles.countP (·.isLoadedBy (p.members group)) +
      (p.manualBundles.values.filter fun b => b.consumers.meets (p.members group)).length := by
  unfold SharedBundle.isLoadedBy
  rw [List.countP_eq_length_filter, ← List.filter_filter]
  rfl

/-- The root is the last one to load the bundle when a group does without it. -/
def isLastLeft (p : Plan) (group : AssetKey) (b : SharedBundle) (m : AssetKey) : Bool :=
  decide ((p.consumersLeft group b).size < 2 ∧ m ∈ p.consumersLeft group b)

/-- A root gets a bucket only if the bundle is dissolved into it. -/
theorem DropsShared.bucketCount_le (drops : p.DropsShared group place b q) (m : AssetKey) :
    q.bucketCount m ≤ p.bucketCount m + if p.isLastLeft group b m then 1 else 0 := by
  split
  · refine Plan.bucketCount_le [p.bucketType m b.fileType] ?_
    intro type filled
    exact (drops.filled m type filled).imp_right fun new => List.mem_singleton.2 new.2.2
  · rename_i stays
    refine Plan.bucketCount_le [] ?_
    intro type filled
    refine .inl ((drops.filled m type filled).resolve_right ?_)
    rintro ⟨few, left, _⟩
    exact stays (decide_eq_true ⟨few, left⟩)

theorem DropsShared.bucketCount_eq (drops : p.DropsShared group place b q) {m : AssetKey}
    (member : m ∈ p.members group) : q.bucketCount m = p.bucketCount m := by
  apply Nat.le_antisymm
  · refine Plan.bucketCount_le [] ?_
    intro type filled
    refine .inl ((drops.filled m type filled).resolve_right ?_)
    rintro ⟨_, left, _⟩
    exact (mem_consumersLeft.1 left).2 member
  · exact Plan.bucketCount_le [] fun type filled => .inl (drops.kept m type filled)

/-- The group itself loads one bundle less. -/
theorem DropsShared.requestCount_group (drops : p.DropsShared group place b q)
    (found : p.sharedBundles[place]? = some b) (can : p.CanDropShared group b) :
    q.requestCount group + 1 = p.requestCount group := by
  have buckets : (p.requested group).map q.bucketCount = (p.requested group).map p.bucketCount :=
    List.map_congr_left fun m listed => drops.bucketCount_eq (List.mem_of_mem_filter listed)
  have loaded : b.isLoadedBy (p.members group) = true :=
    SharedBundle.isLoadedBy_iff.2 ⟨can.loaded, can.alive⟩
  have unloaded : (p.withoutGroup group b).isLoadedBy (p.members group) = false := by
    rw [Bool.eq_false_iff, Ne, SharedBundle.isLoadedBy_iff]
    rintro ⟨⟨c, left, member⟩, _⟩
    exact (mem_consumersLeft.1 left).2 member
  have shared := countP_set_add found (·.isLoadedBy (p.members group)) (p.withoutGroup group b)
  simp only [loaded, unloaded, Bool.false_eq_true, if_true, if_false] at shared
  rw [requestCount_eq, requestCount_eq, drops.shape.requested_eq, drops.shape.members_eq,
    drops.manual, drops.shared, buckets]
  omega

theorem countP_isLastLeft_le (p : Plan) (group other : AssetKey) (b : SharedBundle) :
    (p.requested other).countP (p.isLastLeft group b) ≤ 1 := by
  by_cases few : (p.consumersLeft group b).size < 2
  · have within : ((p.requested other).filter (p.isLastLeft group b)).length ≤
        (p.consumersLeft group b).toList.length := by
      refine ((nodup_requested p other).filter _).length_le_of_subset ?_
      intro m listed
      exact (of_decide_eq_true (List.mem_filter.1 listed).2).2
    rw [List.countP_eq_length_filter]
    unfold KeySet.size at few
    omega
  · rw [List.countP_eq_zero.2]
    · omega
    · intro m _
      simp [isLastLeft, few]

/-- For any group, a bucket that is new stands for the bundle, which is no longer there. -/
theorem countP_isLastLeft_add_le (p : Plan) (group : AssetKey) (alive : b.alive = true)
    (other : AssetKey) :
    (p.requested other).countP (p.isLastLeft group b) +
      (if (p.withoutGroup group b).isLoadedBy (p.members other) then 1 else 0) ≤
      if b.isLoadedBy (p.members other) then 1 else 0 := by
  have loads {c : AssetKey} (left : c ∈ p.consumersLeft group b) (member : c ∈ p.members other) :
      b.isLoadedBy (p.members other) = true :=
    SharedBundle.isLoadedBy_iff.2 ⟨⟨c, (mem_consumersLeft.1 left).1, member⟩, alive⟩
  by_cases lasts : (p.requested other).countP (p.isLastLeft group b) = 0
  · rw [lasts, Nat.zero_add]
    split
    · rename_i loaded
      obtain ⟨⟨c, left, member⟩, _⟩ := SharedBundle.isLoadedBy_iff.1 loaded
      rw [if_pos (loads left member)]
    · exact Nat.zero_le _
  · obtain ⟨m, listed, last⟩ := List.countP_pos_iff.1 (Nat.pos_of_ne_zero lasts)
    obtain ⟨few, left⟩ := of_decide_eq_true last
    have gone : (p.withoutGroup group b).isLoadedBy (p.members other) = false := by
      rw [Bool.eq_false_iff, Ne, SharedBundle.isLoadedBy_iff]
      rintro ⟨_, still⟩
      exact absurd (of_decide_eq_true still) (Nat.not_le.2 few)
    rw [gone, if_pos (loads left (List.mem_of_mem_filter listed))]
    exact countP_isLastLeft_le p group other b

theorem DropsShared.requestCount_le (drops : p.DropsShared group place b q)
    (found : p.sharedBundles[place]? = some b) (can : p.CanDropShared group b) (other : AssetKey) :
    q.requestCount other ≤ p.requestCount other := by
  have buckets := total_map_le_add_countP (p.requested other) fun m _ => drops.bucketCount_le m
  have shared := countP_set_add found (·.isLoadedBy (p.members other)) (p.withoutGroup group b)
  have instead := countP_isLastLeft_add_le p group can.alive other
  rw [requestCount_eq, requestCount_eq, drops.shape.requested_eq, drops.shape.members_eq,
    drops.manual, drops.shared]
  omega

end Counts

/-- What holds whenever limiting looks for a removal: the plan is one of the index, and each live
shared bundle is loaded by two roots at least, none of them entry-like. -/
structure Steady (p : Plan) (i : Index) : Prop where
  within : p.Within i.Known
  several : p.Several
  loaders : ∀ b ∈ p.liveSharedBundles, ∀ c ∈ b.consumers, p.LoadsShared c

theorem steady_of_removesIn {config : Config} {entries : List Entry} {placed : Plan} {count : Nat}
    (places : i.Places config entries placed) (run : RemovesIn i count placed p) : p.Steady i := by
  obtain ⟨well, several⟩ := sharesWell_of_places places
  have kept := run.keeps (motive := fun q =>
    q.SharesWell i config ∧ q.Several ∧ q.RootsReuse ∧ q.Within i.Known) ?_
    ⟨well, several, rootsReuse_of_places places, places.within_known⟩
  · obtain ⟨well, several, _, within⟩ := kept
    exact ⟨within, several, fun b live => (well.fit b (List.mem_of_mem_filter live)).consumers⟩
  · rintro before group after ⟨well, _, roots, within⟩ removes
    obtain ⟨carries, several⟩ := removes.carries roots
    exact ⟨well.of_carries carries, several, removes.rootsReuse roots, removes.within within⟩

/-- Carrying out the removal of a shared bundle that was found does not fail. -/
theorem Steady.exists_dropsShared (steady : p.Steady i) {removal : Removal}
    (isGroup : group ∈ p.groupRoots) (found : p.nextRemoval? i group = .ok (some removal))
    (isShared : removal.subject = .shared place) :
    ∃ next q b, (p.applyRemoval i group removal).result = .ok next ∧
      (next.prune i).result = .ok q ∧ p.sharedBundles[place]? = some b ∧
      p.CanDropShared group b ∧ p.DropsShared group place b q := by
  rcases nextRemoval?_eq_some found with
    ⟨_, b, listed, can, subject, consumers⟩ | ⟨reused, _, subject, _⟩
  · cases subject.symm.trans isShared
    obtain ⟨root, isRoot, _⟩ := mem_groupRoots.1 isGroup
    have applied : (p.applyRemoval i group removal).result =
        .ok (p.removeShared place removal.consumers) := by
      refine applyRemoval_eq_ok.2 ⟨?_, (steady.within.roots group root isRoot).idOf, ?_⟩
      · rw [withRemoval, isShared]
      · rw [isShared]
        exact fun _ other => by cases other
    have after := steady.within.withRemoval found
    rw [withRemoval, isShared] at after
    obtain ⟨q, pruned⟩ := exists_prune after
    have drops := dropsShared_of_prune steady.several listed can (consumers ▸ pruned)
    exact ⟨_, q, b, applied, pruned, listed, can, drops⟩
  · cases subject.symm.trans isShared

end Plan

/-- Removing a shared bundle from a group while the requests are limited. Every plan that limiting
comes to is steady. In a steady plan, a shared bundle that is found to be removed from a group can
be removed from it. After pruning the group requests exactly one bundle less, and no group requests
more than before. -/
theorem shared_removal_saves_a_request (i : Index) :
    (∀ config entries placed count p, i.Places config entries placed →
      Plan.RemovesIn i count placed p → p.Steady i) ∧
    ∀ (p : Plan) group removal place, p.Steady i → group ∈ p.groupRoots →
      p.nextRemoval? i group = .ok (some removal) → removal.subject = .shared place →
      ∃ next q, (p.applyRemoval i group removal).result = .ok next ∧
        (next.prune i).result = .ok q ∧ q.requestCount group + 1 = p.requestCount group ∧
        ∀ other, q.requestCount other ≤ p.requestCount other := by
  refine ⟨fun _ _ _ _ _ => Plan.steady_of_removesIn, ?_⟩
  intro p group removal place steady isGroup found isShared
  obtain ⟨next, q, b, applied, pruned, listed, can, drops⟩ :=
    steady.exists_dropsShared isGroup found isShared
  exact ⟨next, q, applied, pruned, drops.requestCount_group listed can,
    drops.requestCount_le listed can⟩

/-- Two pages that are loaded lazily and share their fonts. The page `a` has a style sheet of its
own, and the page `b` has not. -/
def fontsOfPages : Index :=
  let link (id : String) (priority : Priority) (target : AssetKey) : Link :=
    ⟨{ id, specifier := id, priority }, some target⟩
  ⟨[⟨{ id := "a" }, "", [link "a to colors" .sync 2, link "a to fonts" .sync 3]⟩,
    ⟨{ id := "b" }, "", [link "b to fonts" .sync 3]⟩,
    ⟨{ id := "colors", fileType := .css }, "", []⟩, ⟨{ id := "fonts", fileType := .css }, "", []⟩,
    ⟨{ id := "index" }, "", [link "load a" .lazy 0, link "load b" .lazy 1]⟩]⟩

def fontsOfPagesEntries : List Entry :=
  [⟨{ id := "entry", specifier := "index", isEntry := true }, 4, {}⟩]

/-- The fonts are removed from the group of `a`, and dissolved into `b`, which has no bundle of that
type until then. The page `a` loads two bundles instead of three, and `b` still loads two. -/
theorem fontsOfPages_saved :
    ∃ placed limited : Plan, fontsOfPages.Places { minBundleSize := 0 } fontsOfPagesEntries placed ∧
      placed.Removes fontsOfPages 0 limited ∧ placed.requestCount 0 = 3 ∧
      limited.requestCount 0 = 2 ∧ placed.hasBucket 1 .css = false ∧
      limited.hasBucket 1 .css = true ∧ placed.requestCount 1 = 2 ∧
      limited.requestCount 1 ≤ 2 := by
  have returns : (fontsOfPages.placedPlan { minBundleSize := 0 } {} fontsOfPagesEntries).result.map
      (fun placed => decide (placed.requestCount 0 = 3 ∧ placed.requestCount 1 = 2 ∧
        placed.hasBucket 1 .css = false ∧ 0 ∈ placed.groupRoots ∧
        (placed.nextRemoval? fontsOfPages 0).map (fun removal? => removal?.map fun removal =>
          decide (removal.subject = .shared 0 ∧
            ((placed.applyRemoval fontsOfPages 0 removal).result.bind fun next =>
              (next.prune fontsOfPages).result).map (·.hasBucket 1 .css) = .ok true)) =
          .ok (some true))) = .ok true := by
    decide +kernel
  obtain ⟨placed, places, same⟩ := map_eq_ok_iff.1 returns
  obtain ⟨three, two, lacks, isGroup, removes⟩ := of_decide_eq_true same
  obtain ⟨removal?, found, same⟩ := map_eq_ok_iff.1 removes
  obtain ⟨removal, rfl, removed⟩ := Option.map_eq_some_iff.1 same
  obtain ⟨isShared, dissolves⟩ := of_decide_eq_true removed
  obtain ⟨steady, saves⟩ := shared_removal_saves_a_request fontsOfPages
  obtain ⟨next, limited, applied, pruned, less, noMore⟩ := saves placed 0 removal 0
    (steady _ _ placed 0 placed ⟨{}, places⟩ (.none placed)) isGroup found isShared
  rw [applied] at dissolves
  simp only [Except.bind, pruned, Except.map, Except.ok.injEq] at dissolves
  have bounded := noMore 1
  exact ⟨placed, limited, ⟨{}, places⟩, ⟨removal, next, found, applied, pruned⟩, three, by omega,
    lacks, dissolves, two, by omega⟩

end CodeSplit
