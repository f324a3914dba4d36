import CodeSplit.Proofs.RequestLimiting

/-!
What limiting can make of a plan. Buckets with their assets, edges, the consumers of manual bundles
and the bundles that are dissolved only become more; reuse pairs and the consumers of shared bundles
come and go. All of them stay within what the plan at the start allows for, and nothing else changes
but the groups, which follow from the edges.
-/
namespace CodeSplit.Plan

/-- Something that limiting can add to a plan and never takes away. -/
inductive Mark where
  | holder (root : AssetKey)
  | bucket (root : AssetKey) (fileType : FileType)
  | asset (root : AssetKey) (fileType : FileType) (x : AssetKey)
  | edge (e : BundleEdge)
  | manual (key : ManualKey) (consumer : AssetKey)
  | dissolved (place : Nat)
  deriving DecidableEq

/-- Something that limiting can both add to a plan and take away. -/
inductive Tie where
  | reuse (reuser reused : AssetKey)
  | load (place : Nat) (consumer : AssetKey)
  deriving DecidableEq

def Has (p : Plan) : Mark → Prop
  | .holder root => ∃ buckets, p.placements.get? root = some buckets
  | .bucket root fileType => ∃ assets, (p.buckets root).get? fileType = some assets
  | .asset root fileType x => x ∈ p.bucket root fileType
  | .edge e => e ∈ p.edges
  | .manual key consumer => ∃ b, p.manualBundles.get? key = some b ∧ consumer ∈ b.consumers
  | .dissolved place => ∃ b, p.sharedBundles[place]? = some b ∧ b.alive = false

def Tied (p : Plan) : Tie → Prop
  | .reuse reuser reused => p.Reuses reuser reused
  | .load place consumer => ∃ b, p.sharedBundles[place]? = some b ∧ consumer ∈ b.consumers

/-- The parts of a shared bundle that limiting leaves as they are. -/
def sharedCore (b : SharedBundle) : SharedBundle := { b with consumers := ∅, alive := true }

/-- The parts of a plan that limiting leaves as they are. -/
def core (p : Plan) : Plan where
  target := p.target
  roots := p.roots
  manualBundles := p.manualBundles.map fun _ b => { b with consumers := ∅ }
  sharedBundles := p.sharedBundles.map sharedCore

variable {start p q r : Plan}

theorem roots_eq_of_core (fixed : p.core = q.core) : p.roots = q.roots := by
  have same := congrArg Plan.roots fixed
  exact same

/-- A manual bundle has the same assets under its key. -/
theorem exists_manual_of_core (fixed : p.core = q.core) {key : ManualKey} {b : ManualBundle}
    (found : p.manualBundles.get? key = some b) :
    ∃ other, q.manualBundles.get? key = some other ∧ other.assets = b.assets := by
  have same := congrArg (fun c => c.manualBundles.get? key) fixed
  simp only [core, KeyMap.get?_map, found, Option.map_some] at same
  obtain ⟨other, listed, alike⟩ := Option.map_eq_some_iff.1 same.symm
  have sameAssets := congrArg ManualBundle.assets alike
  exact ⟨other, listed, sameAssets⟩

section Identity

theorem placements_eq_of_marks (marks : ∀ m, p.Has m ↔ q.Has m) : p.placements = q.placements := by
  have buckets (root : AssetKey) : p.buckets root = q.buckets root :=
    KeyMap.eq_of_setAt (fun fileType => marks (.bucket root fileType))
      fun fileType x => marks (.asset root fileType x)
  apply KeyMap.ext
  intro root
  have holds := marks (.holder root)
  have same := buckets root
  unfold Has at holds
  unfold Plan.buckets at same
  cases left : p.placements.get? root with
  | none =>
    cases right : q.placements.get? root with
    | none => rfl
    | some bs => simp [left, right] at holds
  | some bs =>
    cases right : q.placements.get? root with
    | none => simp [left, right] at holds
    | some cs => simpa [left, right] using same

theorem manualBundles_eq_of_marks (fixed : p.core = q.core) (marks : ∀ m, p.Has m ↔ q.Has m) :
    p.manualBundles = q.manualBundles := by
  apply KeyMap.ext
  intro key
  have same := congrArg (fun c => c.manualBundles.get? key) fixed
  simp only [core, KeyMap.get?_map] at same
  have consumers (c : AssetKey) := marks (.manual key c)
  unfold Has at consumers
  cases left : p.manualBundles.get? key with
  | none =>
    cases right : q.manualBundles.get? key with
    | none => rfl
    | some b => simp [left, right] at same
  | some a =>
    cases right : q.manualBundles.get? key with
    | none => simp [left, right] at same
    | some b =>
      simp only [left, right, Option.some.injEq, exists_eq_left'] at consumers
      have sameConsumers := KeySet.ext consumers
      cases a
      cases b
      simp_all

theorem sharedBundles_eq_of_marks (fixed : p.core = q.core) (marks : ∀ m, p.Has m ↔ q.Has m)
    (ties : ∀ t, p.Tied t ↔ q.Tied t) : p.sharedBundles = q.sharedBundles := by
  apply List.ext_getElem?
  intro place
  have same := congrArg (fun c => c.sharedBundles[place]?) fixed
  simp only [core, List.getElem?_map] at same
  have dissolved := marks (.dissolved place)
  have consumers (c : AssetKey) := ties (.load place c)
  unfold Has at dissolved
  unfold Tied at consumers
  cases left : p.sharedBundles[place]? with
  | none =>
    cases right : q.sharedBundles[place]? with
    | none => rfl
    | some b => simp [left, right] at same
  | some a =>
    cases right : q.sharedBundles[place]? with
    | none => simp [left, right] at same
    | some b =>
      simp only [left, right, Option.some.injEq, exists_eq_left'] at consumers dissolved
      have sameConsumers := KeySet.ext consumers
      have sameLife : a.alive = b.alive := by
        cases deadA : a.alive
        · exact (dissolved.1 deadA).symm
        · cases deadB : b.alive
          · exact absurd (dissolved.2 deadB) (by simp [deadA])
          · rfl
      cases a
      cases b
      simp_all [sharedCore]

/-- A plan is known from what limiting leaves as it is, the groups, the edges in their order, and
what it has of all that limiting can add. -/
theorem eq_of_marks (fixed : p.core = q.core) (groups : p.ownGroups = q.ownGroups)
    (edges : p.edges = q.edges) (marks : ∀ m, p.Has m ↔ q.Has m)
    (ties : ∀ t, p.Tied t ↔ q.Tied t) : p = q := by
  have target : p.target = q.target := by
    have same := congrArg Plan.target fixed
    exact same
  have roots := roots_eq_of_core fixed
  have reused : p.reused = q.reused := KeySet.ext fun pair => ties (.reuse pair.1 pair.2)
  have placements := placements_eq_of_marks marks
  have manual := manualBundles_eq_of_marks fixed marks
  have shared := sharedBundles_eq_of_marks fixed marks ties
  cases p
  cases q
  simp_all

end Identity

/-- What the plan at the start allows limiting to add for good. -/
def CanHave (start : Plan) : Mark → Prop
  | .holder root => root ∈ start.possibleHolders
  | .bucket root fileType => root ∈ start.possibleHolders ∧ fileType ∈ start.possibleTypes
  | .asset root fileType x => root ∈ start.possibleHolders ∧ fileType ∈ start.possibleTypes ∧
      x ∈ start.possibleContents
  | .edge e => e ∈ start.edges ∨
      ∃ old ∈ start.edges, ∃ root ∈ start.reuseRoots, e = { old with source := root }
  | .manual key consumer => ∃ b, start.manualBundles.get? key = some b ∧
      (consumer ∈ b.consumers ∨ consumer ∈ start.reuseRoots)
  | .dissolved place => place < start.sharedBundles.length

/-- What it allows to come and go. -/
def CanTie (start : Plan) : Tie → Prop
  | .reuse reuser reused => reuser ∈ start.reuseRoots ∧ reused ∈ start.reuseRoots
  | .load place consumer => place < start.sharedBundles.length ∧
      consumer ∈ start.possibleConsumers

/-- The plan keeps to what the plan at the start allows. -/
structure Confined (start p : Plan) : Prop where
  fixed : p.core = start.core
  marks : ∀ m, p.Has m → start.CanHave m
  ties : ∀ t, p.Tied t → start.CanTie t

/-- The second plan has all that the first has for good, and what it has besides is allowed. New
edges come after the old ones. -/
structure Evolves (start p q : Plan) : Prop where
  fixed : q.core = p.core
  edges : ∃ new, q.edges = p.edges ++ new ∧ ∀ e ∈ new, e ∉ p.edges
  keeps : ∀ m, p.Has m → q.Has m
  gains : ∀ m, q.Has m → p.Has m ∨ start.CanHave m
  ties : ∀ t, q.Tied t → p.Tied t ∨ start.CanTie t

theorem Evolves.refl (start p : Plan) : Evolves start p p :=
  ⟨rfl, ⟨[], by simp, by simp⟩, fun _ has => has, fun _ has => .inl has, fun _ tied => .inl tied⟩

theorem Evolves.trans (first : Evolves start p q) (second : Evolves start q r) :
    Evolves start p r := by
  refine ⟨second.fixed.trans first.fixed, ?_, fun m has => second.keeps m (first.keeps m has),
    ?_, ?_⟩
  · obtain ⟨new, added, fresh⟩ := first.edges
    obtain ⟨newer, addedLater, fresher⟩ := second.edges
    refine ⟨new ++ newer, by rw [addedLater, added, List.append_assoc], ?_⟩
    intro e listed old
    rcases List.mem_append.1 listed with now | later
    · exact fresh e now old
    · exact fresher e later (by rw [added]; exact List.mem_append_left _ old)
  · intro m has
    rcases second.gains m has with before | allowed
    · exact first.gains m before
    · exact .inr allowed
  · intro t tied
    rcases second.ties t tied with before | allowed
    · exact first.ties t before
    · exact .inr allowed

theorem Confined.evolves (confined : Confined start p) (evolves : Evolves start p q) :
    Confined start q := by
  refine ⟨evolves.fixed.trans confined.fixed, ?_, ?_⟩
  · intro m has
    exact (evolves.gains m has).elim (confined.marks m) id
  · intro t tied
    exact (evolves.ties t tied).elim (confined.ties t) id

section Start

theorem mem_possibleConsumers {b : SharedBundle} (listed : b ∈ p.sharedBundles) {c : AssetKey}
    (consumer : c ∈ b.consumers) : c ∈ p.possibleConsumers :=
  List.mem_append_left _ (KeySet.mem_unions_map.2 ⟨b, listed, consumer⟩)

theorem mem_possibleConsumers_of_reuse {root : AssetKey} (listed : root ∈ p.reuseRoots) :
    root ∈ p.possibleConsumers := List.mem_append_right _ listed

theorem mem_possibleHolders_of_consumer {root : AssetKey} (listed : root ∈ p.possibleConsumers) :
    root ∈ p.possibleHolders := List.mem_append_right _ listed

/-- Buckets that a root has belong to one that has been placed. -/
theorem exists_placement {root : AssetKey} {fileType : FileType} {assets : KeySet AssetKey}
    (found : (p.buckets root).get? fileType = some assets) :
    ∃ buckets, p.placements.get? root = some buckets ∧ buckets.get? fileType = some assets := by
  unfold buckets at found
  cases placed : p.placements.get? root with
  | none => simp [placed] at found
  | some buckets => exact ⟨buckets, rfl, by simpa [placed] using found⟩

theorem canHave_of_has {m : Mark} (has : p.Has m) : p.CanHave m := by
  have holder {root : AssetKey} {buckets : Buckets}
      (placed : p.placements.get? root = some buckets) : root ∈ p.possibleHolders :=
    List.mem_append_left _ (KeyMap.mem_keys_iff.2 ⟨buckets, placed⟩)
  have type {root : AssetKey} {buckets : Buckets} {fileType : FileType} {assets : KeySet AssetKey}
      (placed : p.placements.get? root = some buckets)
      (found : buckets.get? fileType = some assets) : fileType ∈ p.possibleTypes := by
    refine List.mem_append_left _ (List.mem_append_right _ (List.mem_flatMap.2 ⟨buckets, ?_, ?_⟩))
    · exact KeyMap.mem_values_iff.2 ⟨root, placed⟩
    · exact KeyMap.mem_keys_iff.2 ⟨assets, found⟩
  cases m with
  | holder root =>
    obtain ⟨buckets, placed⟩ := has
    exact holder placed
  | bucket root fileType =>
    obtain ⟨assets, found⟩ := has
    obtain ⟨buckets, placed, found⟩ := exists_placement found
    exact ⟨holder placed, type placed found⟩
  | asset root fileType x =>
    obtain ⟨assets, found, member⟩ := KeyMap.mem_setAt_iff.1 has
    obtain ⟨buckets, placed, found⟩ := exists_placement found
    refine ⟨holder placed, type placed found, List.mem_append_left _ ?_⟩
    refine List.mem_flatMap.2 ⟨buckets, KeyMap.mem_values_iff.2 ⟨root, placed⟩, ?_⟩
    exact List.mem_flatMap.2 ⟨assets, KeyMap.mem_values_iff.2 ⟨fileType, found⟩, member⟩
  | edge e => exact .inl has
  | manual key consumer =>
    obtain ⟨b, found, member⟩ := has
    exact ⟨b, found, .inl member⟩
  | dissolved place =>
    obtain ⟨b, found, _⟩ := has
    exact (List.getElem?_eq_some_iff.1 found).1

theorem Confined.refl (p : Plan) : Confined p p := by
  refine ⟨rfl, fun _ has => canHave_of_has has, ?_⟩
  intro t tied
  cases t with
  | reuse reuser reused => exact mem_reuseRoots tied
  | load place consumer =>
    obtain ⟨b, found, member⟩ := tied
    exact ⟨(List.getElem?_eq_some_iff.1 found).1,
      mem_possibleConsumers (List.mem_of_getElem? found) member⟩

end Start

section Packing

variable {root : AssetKey} {fileType : FileType} {assets : List AssetKey}

/-- What there is after an asset has been placed. -/
theorem has_place {asset : AssetKey} {m : Mark} :
    (p.place root fileType asset).Has m ↔ p.Has m ∨ m = .holder root ∨ m = .bucket root fileType ∨
      m = .asset root fileType asset := by
  cases m with
  | holder other =>
    simp only [Has, place, KeyMap.get?_update]
    by_cases same : root = other
    · simp [same]
    · simp [same, Ne.symm same]
  | bucket other otherType =>
    simp only [Has, buckets_place]
    by_cases same : root = other
    · by_cases sameType : fileType = otherType
      · simp [same, sameType]
      · simp [same, sameType, Ne.symm sameType]
    · simp [same, Ne.symm same]
  | asset other otherType x =>
    simp only [Has, mem_bucket_place]
    simp [eq_comm, or_comm]
  | edge e => simp [Has, place]
  | manual key consumer => simp [Has, place]
  | dissolved n => simp [Has, place]

/-- A fold of steps that do only what is allowed. -/
theorem evolves_foldl {α : Type} {f : Plan → α → Plan} {as : List α} (fixed : p.core = start.core)
    (each : ∀ q, q.core = start.core → ∀ a ∈ as, Evolves start q (f q a)) :
    Evolves start p (as.foldl f p) := by
  refine List.foldlRecOn as f (.refl start p) ?_
  intro q evolves a listed
  exact evolves.trans (each q (evolves.fixed.trans fixed) a listed)

theorem bucketType_mem_possibleTypes (fixed : p.core = start.core)
    (possible : fileType ∈ start.possibleTypes) (root : AssetKey) :
    p.bucketType root fileType ∈ start.possibleTypes := by
  have roots := roots_eq_of_core fixed
  unfold bucketType root?
  rw [roots]
  split
  · rename_i r found
    split
    · refine List.mem_append_left _ (List.mem_append_left _ (List.mem_map.2 ⟨r, ?_, rfl⟩))
      exact KeyMap.mem_values_iff.2 ⟨root, found⟩
    · exact possible
  · exact possible

theorem evolves_place {asset : AssetKey} (holder : root ∈ start.possibleHolders)
    (type : fileType ∈ start.possibleTypes) (content : asset ∈ start.possibleContents) :
    Evolves start p (p.place root fileType asset) := by
  refine ⟨rfl, ⟨[], by simp [place], by simp⟩, fun m has => has_place.2 (.inl has), ?_, ?_⟩
  · intro m has
    rcases has_place.1 has with before | rfl | rfl | rfl
    · exact .inl before
    · exact .inr holder
    · exact .inr ⟨holder, type⟩
    · exact .inr ⟨holder, type, content⟩
  · intro t tied
    cases t with
    | reuse a b => exact .inl tied
    | load n c => exact .inl tied

theorem evolves_packAll (fixed : p.core = start.core) (holder : root ∈ start.possibleHolders)
    (type : fileType ∈ start.possibleTypes) (contents : ∀ x ∈ assets, x ∈ start.possibleContents) :
    Evolves start p (p.packAll root fileType assets) :=
  evolves_foldl fixed fun _ same x listed =>
    evolves_place holder (bucketType_mem_possibleTypes same type root) (contents x listed)

end Packing

section Sharing

variable {b : SharedBundle}

theorem length_sharedBundles (fixed : p.core = start.core) :
    p.sharedBundles.length = start.sharedBundles.length := by
  have same := congrArg (fun c => c.sharedBundles.length) fixed
  simpa [core] using same

/-- Type and assets of a shared bundle are those of one in the plan at the start. -/
theorem mem_possible_of_shared (fixed : p.core = start.core) (listed : b ∈ p.sharedBundles) :
    b.fileType ∈ start.possibleTypes ∧ ∀ x ∈ b.assets.toList, x ∈ start.possibleContents := by
  have same := congrArg Plan.sharedBundles fixed
  have kept : sharedCore b ∈ start.sharedBundles.map sharedCore := by
    have member : sharedCore b ∈ p.core.sharedBundles := List.mem_map.2 ⟨b, listed, rfl⟩
    rw [same] at member
    exact member
  obtain ⟨old, listed, alike⟩ := List.mem_map.1 kept
  have sameType := congrArg SharedBundle.fileType alike
  have sameAssets := congrArg SharedBundle.assets alike
  simp only [sharedCore] at sameType sameAssets
  constructor
  · exact List.mem_append_right _ (List.mem_map.2 ⟨old, listed, sameType⟩)
  · intro x member
    exact List.mem_append_right _ (List.mem_flatMap.2 ⟨old, listed, sameAssets ▸ member⟩)

/-- Copying a shared bundle into some of those that can load one. -/
theorem evolves_packShared (fixed : p.core = start.core)
    (type : b.fileType ∈ start.possibleTypes)
    (contents : ∀ x ∈ b.assets.toList, x ∈ start.possibleContents) {roots : List AssetKey}
    (consumers : ∀ c ∈ roots, c ∈ start.possibleConsumers) :
    Evolves start p (roots.foldl (fun p c => p.packAll c b.fileType b.assets.toList) p) :=
  evolves_foldl fixed fun _ same c listed =>
    evolves_packAll same (mem_possibleHolders_of_consumer (consumers c listed)) type contents

/-- What limiting may do to one shared bundle. -/
structure Alters (start : Plan) (old new : SharedBundle) : Prop where
  core : sharedCore new = sharedCore old
  dissolved : old.alive = false → new.alive = false
  consumers : ∀ c ∈ new.consumers, c ∈ old.consumers ∨ c ∈ start.possibleConsumers

theorem Alters.refl (start : Plan) (b : SharedBundle) : Alters start b b :=
  ⟨rfl, id, fun _ consumer => .inl consumer⟩

/-- Each shared bundle is altered in its place. -/
structure AltersEach (start : Plan) (olds news : List SharedBundle) : Prop where
  forth : ∀ (place : Nat) (old : SharedBundle), olds[place]? = some old →
    ∃ new, news[place]? = some new ∧ Alters start old new
  back : ∀ (place : Nat) (new : SharedBundle), news[place]? = some new →
    ∃ old, olds[place]? = some old ∧ Alters start old new

theorem altersEach_map {change : SharedBundle → SharedBundle} {bundles : List SharedBundle}
    (each : ∀ b, Alters start b (change b)) : AltersEach start bundles (bundles.map change) := by
  constructor
  · intro place old found
    exact ⟨change old, by rw [List.getElem?_map, found]; rfl, each old⟩
  · intro place new made
    rw [List.getElem?_map] at made
    obtain ⟨old, found, rfl⟩ := Option.map_eq_some_iff.1 made
    exact ⟨old, found, each old⟩

theorem altersEach_set {bundles : List SharedBundle} {place : Nat} {old new : SharedBundle}
    (found : bundles[place]? = some old) (alters : Alters start old new) :
    AltersEach start bundles (bundles.set place new) := by
  have here : (bundles.set place new)[place]? = some new :=
    List.getElem?_set_self (List.getElem?_eq_some_iff.1 found).1
  constructor
  · intro other b listed
    by_cases same : place = other
    · subst same
      cases found.symm.trans listed
      exact ⟨new, here, alters⟩
    · exact ⟨b, by rw [List.getElem?_set_ne same]; exact listed, .refl start b⟩
  · intro other b listed
    by_cases same : place = other
    · subst same
      cases here.symm.trans listed
      exact ⟨old, found, alters⟩
    · rw [List.getElem?_set_ne same] at listed
      exact ⟨b, listed, .refl start b⟩

theorem AltersEach.core_eq {olds news : List SharedBundle} (each : AltersEach start olds news) :
    news.map sharedCore = olds.map sharedCore := by
  apply List.ext_getElem?
  intro place
  rw [List.getElem?_map, List.getElem?_map]
  cases made : news[place]? with
  | some new =>
    obtain ⟨old, found, alters⟩ := each.back place new made
    rw [found]
    exact congrArg some alters.core
  | none =>
    cases found : olds[place]? with
    | none => rfl
    | some old =>
      obtain ⟨new, other, _⟩ := each.forth place old found
      cases made.symm.trans other

theorem evolves_alter {bundles : List SharedBundle} (fixed : p.core = start.core)
    (each : AltersEach start p.sharedBundles bundles) :
    Evolves start p { p with sharedBundles := bundles } := by
  have inside {place : Nat} {old : SharedBundle} (found : p.sharedBundles[place]? = some old) :
      place < start.sharedBundles.length :=
    length_sharedBundles fixed ▸ (List.getElem?_eq_some_iff.1 found).1
  refine ⟨?_, ⟨[], by simp, by simp⟩, ?_, ?_, ?_⟩
  · unfold core
    rw [each.core_eq]
  · intro m has
    cases m
    case dissolved place =>
      obtain ⟨old, found, dead⟩ := has
      obtain ⟨new, made, alters⟩ := each.forth place old found
      exact ⟨new, made, alters.dissolved dead⟩
    all_goals exact has
  · intro m has
    cases m
    case dissolved place =>
      obtain ⟨new, made, _⟩ := has
      obtain ⟨old, found, _⟩ := each.back place new made
      exact .inr (inside found)
    all_goals exact .inl has
  · intro t tied
    cases t with
    | reuse reuser reused => exact .inl tied
    | load place c =>
      obtain ⟨new, made, consumer⟩ := tied
      obtain ⟨old, found, alters⟩ := each.back place new made
      rcases alters.consumers c consumer with loads | joins
      · exact .inl ⟨old, found, loads⟩
      · exact .inr ⟨inside found, joins⟩

theorem evolves_removeShared (confined : Confined start p) (place : Nat)
    {consumers : KeySet AssetKey} (possible : ∀ c ∈ consumers, c ∈ start.possibleConsumers) :
    Evolves start p (p.removeShared place consumers) := by
  unfold removeShared
  split
  · exact .refl start p
  · rename_i b found
    obtain ⟨type, contents⟩ := mem_possible_of_shared confined.fixed (List.mem_of_getElem? found)
    have packing := evolves_packShared confined.fixed type contents possible
    have packs := packs_packAll_each p consumers.toList b.fileType b.assets.toList
    refine packing.trans (evolves_alter (packing.fixed.trans confined.fixed) ?_)
    rw [packs.sharedBundles]
    refine altersEach_set found ⟨rfl, id, ?_⟩
    intro c left
    exact .inl (KeySet.mem_diff.1 left).1

theorem evolves_prune {i : Index} (confined : Confined start p)
    (pruned : (p.prune i).result = .ok q) : Evolves start p q := by
  have retiring : Evolves start p { p with sharedBundles := retired p.sharedBundles } := by
    refine evolves_alter confined.fixed (altersEach_map fun b => ?_)
    split
    · exact ⟨rfl, fun _ => rfl, fun _ consumer => .inl consumer⟩
    · exact .refl start b
  unfold prune at pruned
  rw [Report.result_foldlM] at pruned
  refine (foldlM_ok_induction (fun rest s => (∀ b ∈ rest, b ∈ p.sharedBundles) ∧ Evolves start p s)
    ?_ ⟨fun b listed => List.mem_of_mem_filter listed, retiring⟩ pruned).2
  rintro b rest s next ⟨listed, evolves⟩ dissolved
  obtain rfl := dissolve_eq dissolved
  have now := listed b List.mem_cons_self
  obtain ⟨type, contents⟩ := mem_possible_of_shared confined.fixed now
  refine ⟨fun c later => listed c (List.mem_cons_of_mem _ later), evolves.trans ?_⟩
  refine evolves_packShared (evolves.fixed.trans confined.fixed) type contents ?_
  intro c consumer
  obtain ⟨place, found⟩ := List.mem_iff_getElem?.1 now
  exact (confined.ties (.load place c) ⟨b, found, consumer⟩).2

end Sharing

section Reuse

variable {reused reuser : AssetKey} {buckets : Buckets} {nested : List AssetKey}
  {outgoing : List BundleEdge}

theorem evolves_addEdge {e : BundleEdge} (possible : start.CanHave (.edge e)) :
    Evolves start p (p.addEdge e) := by
  unfold addEdge
  split
  · exact .refl start p
  · rename_i fresh
    refine ⟨rfl, ⟨[e], rfl, by simpa using fresh⟩, ?_, ?_, ?_⟩
    · intro m has
      cases m
      case edge other => exact List.mem_append_left _ has
      all_goals exact has
    · intro m has
      cases m
      case edge other =>
        rcases List.mem_append.1 has with old | new
        · exact .inl old
        · cases List.mem_singleton.1 new
          exact .inr possible
      all_goals exact .inl has
    · intro t tied
      cases t with
      | reuse a b => exact .inl tied
      | load place c => exact .inl tied

/-- The edge of a root that a reuser copies is again one that there can be. -/
theorem canHave_copied {e : BundleEdge} (possible : start.CanHave (.edge e))
    (reusing : reuser ∈ start.reuseRoots) : start.CanHave (.edge { e with source := reuser }) := by
  rcases possible with old | ⟨old, listed, _, _, rfl⟩
  · exact .inr ⟨e, old, reuser, reusing, rfl⟩
  · exact .inr ⟨old, listed, reuser, reusing, rfl⟩

/-- Other pairs, and one more consumer of some manual bundles. -/
theorem evolves_rewire {pairs : KeySet (AssetKey × AssetKey)} (joins : ManualBundle → Prop)
    [DecidablePred joins] {manual : KeyMap ManualKey ManualBundle} (fixed : p.core = start.core)
    (possible : ∀ a b, (a, b) ∈ pairs → p.Reuses a b ∨ start.CanTie (.reuse a b))
    (joined : manual = p.manualBundles.map fun _ b =>
      if joins b then { b with consumers := b.consumers.insert reuser } else b)
    (reusing : reuser ∈ start.reuseRoots) :
    Evolves start p { p with reused := pairs, manualBundles := manual } := by
  subst joined
  refine ⟨?_, ⟨[], by simp, by simp⟩, ?_, ?_, ?_⟩
  · unfold core
    congr 1
    apply KeyMap.ext
    intro key
    rw [KeyMap.get?_map, KeyMap.get?_map, KeyMap.get?_map, Option.map_map]
    congr 1
    funext b
    simp only [Function.comp]
    split
    · rfl
    · rfl
  · intro m has
    cases m
    case manual key consumer =>
      obtain ⟨b, found, member⟩ := has
      refine ⟨if joins b then { b with consumers := b.consumers.insert reuser } else b,
        by rw [KeyMap.get?_map, found]; rfl, ?_⟩
      split
      · exact KeySet.mem_insert.2 (.inr member)
      · exact member
    all_goals exact has
  · intro m has
    cases m
    case manual key consumer =>
      obtain ⟨new, made, member⟩ := has
      rw [KeyMap.get?_map] at made
      obtain ⟨b, found, rfl⟩ := Option.map_eq_some_iff.1 made
      split at member
      · rcases KeySet.mem_insert.1 member with rfl | old
        · obtain ⟨first, listed, _⟩ := exists_manual_of_core fixed found
          exact .inr ⟨first, listed, .inr reusing⟩
        · exact .inl ⟨b, found, old⟩
      · exact .inl ⟨b, found, member⟩
    all_goals exact .inl has
  · intro t tied
    cases t with
    | reuse a b => exact possible a b tied
    | load place c => exact .inl tied

theorem evolves_rewired (confined : Confined start p) (reusing : reuser ∈ start.reuseRoots)
    (contents : ∀ entry ∈ buckets.entries, entry.1 ∈ start.possibleTypes ∧
      ∀ x ∈ entry.2.toList, x ∈ start.possibleContents)
    (reuses : ∀ n ∈ nested, n ∈ start.reuseRoots)
    (edges : ∀ e ∈ outgoing, start.CanHave (.edge e)) :
    Evolves start p (p.rewired reused buckets nested outgoing reuser) := by
  have holder := mem_possibleHolders_of_consumer (mem_possibleConsumers_of_reuse reusing)
  let packed := buckets.entries.foldl (fun p entry => p.packAll reuser entry.1 entry.2.toList) p
  have packing : Evolves start p packed :=
    evolves_foldl confined.fixed fun _ same entry listed =>
      evolves_packAll same holder (contents entry listed).1 (contents entry listed).2
  let linked := (outgoing.filter fun e => e.target ≠ reuser).foldl
    (fun p e => p.addEdge { e with source := reuser }) packed
  have linking : Evolves start packed linked :=
    evolves_foldl (packing.fixed.trans confined.fixed) fun _ _ e listed =>
      evolves_addEdge (canHave_copied (edges e (List.mem_of_mem_filter listed)) reusing)
  have packs : Packs p packed :=
    .foldl (fun p (entry : FileType × KeySet AssetKey) =>
      packs_packAll p reuser entry.1 entry.2.toList) buckets.entries p
  obtain ⟨frame, _⟩ := foldl_addEdge (fun e => { e with source := reuser })
    (outgoing.filter fun e => e.target ≠ reuser) packed
  have samePairs : linked.reused = p.reused := (congrArg Plan.reused frame).trans packs.reused
  have sameManual : linked.manualBundles = p.manualBundles :=
    (congrArg Plan.manualBundles frame).trans packs.manualBundles
  have evolves := packing.trans linking
  refine evolves.trans (evolves_rewire (fun b => reused ∈ b.consumers)
    (evolves.fixed.trans confined.fixed) ?_ (by rw [sameManual]) reusing)
  intro a b pair
  unfold Reuses
  rw [samePairs]
  rcases mem_pairs_copyReused.1 pair with ⟨old, _⟩ | ⟨rfl, member, _⟩
  · exact .inl old
  · exact .inr ⟨reusing, reuses b member⟩

theorem evolves_copyReused (confined : Confined start p) (reusing : reuser ∈ start.reuseRoots)
    (contents : ∀ entry ∈ buckets.entries, entry.1 ∈ start.possibleTypes ∧
      ∀ x ∈ entry.2.toList, x ∈ start.possibleContents)
    (reuses : ∀ n ∈ nested, n ∈ start.reuseRoots)
    (edges : ∀ e ∈ outgoing, start.CanHave (.edge e)) :
    Evolves start p (p.copyReused reused buckets nested outgoing reuser) := by
  have consumer := mem_possibleConsumers_of_reuse reusing
  have rewiring : Evolves start p (p.rewired reused buckets nested outgoing reuser) :=
    evolves_rewired confined reusing contents reuses edges
  have fixed := rewiring.fixed.trans confined.fixed
  rw [copyReused_eq]
  split
  · refine rewiring.trans (evolves_foldl fixed ?_)
    intro q same b listed
    have shared := List.mem_of_mem_filter (List.mem_of_mem_filter listed)
    obtain ⟨type, contents⟩ := mem_possible_of_shared confined.fixed shared
    exact evolves_packAll same (mem_possibleHolders_of_consumer consumer) type contents
  · refine rewiring.trans (evolves_alter fixed ?_)
    rw [(rewires_rewired p reused buckets nested outgoing reuser).sharedBundles]
    refine altersEach_map fun b => ?_
    split
    · refine ⟨rfl, id, ?_⟩
      intro c loads
      rcases KeySet.mem_insert.1 loads with rfl | old
      · exact .inr consumer
      · exact .inl old
    · exact .refl start b

theorem evolves_removeReused (confined : Confined start p) {reusers : KeySet AssetKey}
    (reusing : ∀ r ∈ reusers, p.Reuses r reused) :
    Evolves start p (p.removeReused reused reusers) := by
  refine removeReused_induction (Evolves start p) (.refl start p) ?_
  intro q evolves reuser taker
  refine evolves.trans (evolves_copyReused (confined.evolves evolves)
    (confined.ties (.reuse reuser reused) (reusing reuser taker)).1 ?_ ?_ ?_)
  · rintro ⟨fileType, assets⟩ listed
    have found : (p.buckets reused).get? fileType = some assets := KeyMap.get?_eq_some_iff.2 listed
    refine ⟨(confined.marks (.bucket reused fileType) ⟨assets, found⟩).2, ?_⟩
    intro x member
    exact (confined.marks (.asset reused fileType x)
      (KeyMap.mem_setAt_iff.2 ⟨assets, found, member⟩)).2.2
  · intro n nested
    exact (confined.ties (.reuse reused n) (mem_reusedBy.1 nested)).2
  · intro e listed
    exact confined.marks (.edge e) (List.mem_of_mem_filter listed)

theorem evolves_withGroups (start p : Plan) : Evolves start p p.withGroups := by
  refine ⟨rfl, ⟨[], by simp [withGroups], by simp⟩, ?_, ?_, ?_⟩
  · intro m has
    cases m
    all_goals exact has
  · intro m has
    cases m
    all_goals exact .inl has
  · intro t tied
    cases t
    all_goals exact .inl tied

end Reuse

section Removing

variable {i : Index} {group : AssetKey}

/-- A removal that was found adds only what is allowed, and takes away only pairs and consumers. -/
theorem evolves_withRemoval (confined : Confined start p) {removal : Removal}
    (found : p.nextRemoval? i group = .ok (some removal)) :
    Evolves start p (p.withRemoval removal) := by
  unfold withRemoval
  rcases nextRemoval?_eq_some found with
    ⟨place, b, listed, _, subject, consumers⟩ | ⟨reused, _, subject, reusing⟩
  · rw [subject, consumers]
    refine evolves_removeShared confined place fun c taker => ?_
    exact (confined.ties (.load place c) ⟨b, listed, (KeySet.mem_inter.1 taker).1⟩).2
  · rw [subject]
    exact (evolves_removeReused confined fun r taker => ((reusing r).1 taker).2).trans
      (evolves_withGroups start _)

theorem Removes.evolves (removes : p.Removes i group q) (confined : Confined start p) :
    Evolves start p q := by
  obtain ⟨removal, next, found, applied, pruned⟩ := removes
  obtain ⟨rfl, _⟩ := applyRemoval_eq_ok.1 applied
  have removing := evolves_withRemoval confined found
  exact removing.trans (evolves_prune (confined.evolves removing) pruned)

end Removing

end CodeSplit.Plan
