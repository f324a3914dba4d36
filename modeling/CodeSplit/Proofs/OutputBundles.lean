import CodeSplit.Proofs.UnloadedBundles

/-!
The bundles that bundling gives. All plans are written into one graph, so bundles of different
targets that have one id become one bundle. The first of them, in the order of the plans, decides
what the bundle is; later ones only add to the assets that it is the entry point of.
-/
namespace CodeSplit

open BundleGraph

/-- What a bundle is called, what it is for and where it goes do not change in a merge. -/
structure Bundle.SameLabel (b c : Bundle) : Prop where
  name : c.name = b.name
  kind : c.kind = b.kind
  target : c.target = b.target

namespace Bundle

theorem sameLabel_foldl_merge (b : Bundle) (rest : List Bundle) :
    b.SameLabel (rest.foldl merge b) := by
  induction rest generalizing b with
  | nil => exact ⟨rfl, rfl, rfl⟩
  | cons c rest ih =>
    obtain ⟨name, kind, target⟩ := ih (b.merge c)
    exact ⟨name, kind, target⟩

/-- The first of the bundles with one id decides what they become. -/
theorem first_of_gather {bs : List Bundle} {id : String} {b : Bundle}
    (made : gather (bs.filter fun c => c.id = id) = some b) :
    ∃ first, bs.find? (fun c => c.id = id) = some first ∧ first.SameContents b ∧
      first.SameLabel b := by
  obtain ⟨first, isFirst, same, _⟩ := gather_eq_some made
  refine ⟨first, List.head?_filter.symm.trans isFirst, same, ?_⟩
  cases listed : bs.filter fun c => c.id = id with
  | nil =>
    rw [listed] at made
    cases made
  | cons c rest =>
    rw [listed] at made isFirst
    cases made
    cases isFirst
    exact sameLabel_foldl_merge first rest

end Bundle

namespace Plan

variable {p : Plan} {i : Index} {config : Config} {root : AssetKey} {r : Root} {b : Bundle}

/-- The bundle of a bucket is named by the stem of its root, and has its id in the name unless the
root needs a stable one. -/
theorem bucketBundle_label {fileType : FileType} {assets : KeySet AssetKey}
    (success : p.bucketBundle i config root r fileType assets = .ok b) :
    b.kind = .root ∧ b.target = p.target ∧ ∃ start, stem i config root r = .ok start ∧
      ((b.needsStableName = true ∧ r.needsStableName = true ∧
          b.name = BundleName.stableName start b.fileType) ∨
        (b.needsStableName = false ∧
          BundleName.hashedName start b.id b.fileType = .ok b.name)) := by
  unfold bucketBundle at success
  obtain ⟨start, isStem, success⟩ := bind_eq_ok_iff.1 success
  obtain ⟨ids, _, success⟩ := bind_eq_ok_iff.1 success
  obtain ⟨size, _, success⟩ := bind_eq_ok_iff.1 success
  simp only [] at success
  split at success
  · rename_i stable
    obtain ⟨name, named, success⟩ := bind_eq_ok_iff.1 success
    cases named
    rw [← Except.ok.inj success]
    exact ⟨rfl, rfl, start, isStem, .inl ⟨stable, (Bool.and_eq_true_iff.1 stable).2, rfl⟩⟩
  · rename_i unstable
    obtain ⟨name, named, success⟩ := bind_eq_ok_iff.1 success
    rw [← Except.ok.inj success]
    exact ⟨rfl, rfl, start, isStem, .inr ⟨Bool.eq_false_iff.2 unstable, named⟩⟩

theorem sharedBundle_label {shared : SharedBundle} (success : p.sharedBundle i shared = .ok b) :
    b.kind = .shared ∧ b.target = p.target ∧ b.needsStableName = false ∧
      BundleName.sharedName b.id b.fileType = .ok b.name := by
  unfold sharedBundle at success
  split at success
  · cases success
  · obtain ⟨ids, _, success⟩ := bind_eq_ok_iff.1 success
    obtain ⟨name, named, success⟩ := bind_eq_ok_iff.1 success
    obtain ⟨env, _, success⟩ := bind_eq_ok_iff.1 success
    rw [← Except.ok.inj success]
    exact ⟨rfl, rfl, rfl, named⟩

theorem manualBundle_label {key : ManualKey} {manual : ManualBundle}
    (success : p.manualBundle i key manual = .ok b) :
    b.kind = .manual ∧ b.target = p.target ∧ b.needsStableName = false ∧
      BundleName.hashedName key.qualifiedName b.id b.fileType = .ok b.name := by
  unfold manualBundle at success
  obtain ⟨name, named, success⟩ := bind_eq_ok_iff.1 success
  obtain ⟨env, _, success⟩ := bind_eq_ok_iff.1 success
  obtain ⟨size, _, success⟩ := bind_eq_ok_iff.1 success
  obtain ⟨ids, _, success⟩ := bind_eq_ok_iff.1 success
  rw [← Except.ok.inj success]
  exact ⟨rfl, rfl, rfl, named⟩

end Plan

namespace Inscription

variable {s : Inscription} {i : Index} {config : Config} {g filled grouped next : BundleGraph}

/-- Groups and edges leave the bundles as they are. -/
theorem WritesIn.bundle?_eq (writes : s.WritesIn i config g filled grouped next)
    (keyed : g.WellKeyed) (id : String) : next.bundle? id = filled.bundle? id := by
  obtain ⟨fills, _⟩ :=
    addBundles_spec keyed (fun _ _ listed => Plan.isDigest_of_planned listed) writes.bundles
  obtain ⟨groups, _⟩ := writeGroups_spec fills.keyed Plan.nodup_groupRoots writes.groups
  have grows : Grows filled next := by
    rw [writes.last]
    exact (groups.linkAll _).linkAll s.links
  have more : Extends filled next := by
    have first := extends_writeGroups (w := s.written) s.written.plan.groupRoots filled
    rw [writes.groups] at first
    rw [writes.last]
    exact (first.trans (extends_linkAll _ _)).trans (extends_linkAll _ _)
  cases found : filled.bundle? id with
  | some b =>
    obtain ⟨n, isNode, bundleAt⟩ := Option.bind_eq_some_iff.1 found
    have isKey := fills.keyed.nodeOfKey?_eq_some_iff.1 isNode
    rw [grows.keyed.bundle?_eq (grows.keeps isKey)]
    exact more.bundleAt? bundleAt
  | none =>
    -- a key that is new is that of a group
    by_contra present
    obtain ⟨b, isBundle⟩ := Option.ne_none_iff_exists'.1 present
    obtain ⟨n, isNode, bundleAt⟩ := Option.bind_eq_some_iff.1 isBundle
    have isKey := grows.keyed.nodeOfKey?_eq_some_iff.1 isNode
    have sameId := Option.some_inj.1 (isKey.symm.trans (getElem?_keys_of_bundleAt? bundleAt))
    have digest : Digest.IsDigest id := sameId ▸
      grows.keyed.named _ (List.mem_of_getElem? (bundleAt?_eq_some_iff.1 bundleAt))
    have listed := List.mem_of_getElem? isKey
    rw [writes.last, keys_linkAll, keys_linkAll] at listed
    rcases mem_keys_writeGroups writes.groups listed with old | isGroup
    · obtain ⟨m, isOld⟩ := List.mem_iff_getElem?.1 old
      obtain ⟨c, oldAt, _⟩ := fills.keyed.exists_bundleAt? isOld digest
      rw [fills.keyed.bundle?_eq isOld, oldAt] at found
      cases found
    · exact not_isGroupId_of_isDigest digest isGroup

end Inscription

namespace Bundler

variable {i : Index} {config : Config} {g : AssetGraph} {build : Build} {b c : Bundle}

/-- The bundles that plans are to write, in order. -/
def plannedAll (i : Index) (config : Config) (plans : List Plan) : List Bundle :=
  plans.flatMap fun p => made (p.plannedBundles i config)

theorem mem_plannedAll {plans : List Plan} :
    b ∈ plannedAll i config plans ↔
      ∃ p ∈ plans, ∃ origin, (origin, .ok b) ∈ p.plannedBundles i config := by
  simp only [plannedAll, List.mem_flatMap, mem_made]

/-- After writing plans, the graph has under each id what all bundles of this id become. -/
theorem writePlans_gathers {plans : List Plan} {start : BundleGraph} (keyed : start.WellKeyed)
    {before : List Bundle}
    (gathered : ∀ id, start.bundle? id = Bundle.gather (before.filter fun b => b.id = id))
    (ok : (writePlans i config plans start).2.result = .ok ()) (id : String) :
    (writePlans i config plans start).1.bundle? id =
      Bundle.gather ((before ++ plannedAll i config plans).filter fun b => b.id = id) := by
  induction plans generalizing start before with
  | nil =>
    rw [plannedAll, List.flatMap_nil, List.append_nil]
    exact gathered id
  | cons p plans ih =>
    obtain ⟨s, filled, grouped, next, same, writes, rest, result⟩ := writePlans_cons_ok ok
    obtain ⟨grows, _⟩ := writes.standsIn keyed
    have added : ∀ id, next.bundle? id =
        Bundle.gather ((before ++ made (p.plannedBundles i config)).filter fun b => b.id = id) := by
      intro id
      rw [writes.bundle?_eq keyed, ← same]
      exact addBundles_gathers keyed (fun _ _ listed => Plan.isDigest_of_planned listed) gathered
        writes.bundles id
    rw [result, ih grows.keyed added rest, plannedAll, plannedAll, List.flatMap_cons,
      List.append_assoc]

/-- Where plans can be written, bundles with one id hold the same assets, and so does what is in the
graph under the id. -/
theorem writePlans_agree {plans : List Plan} {start : BundleGraph} (keyed : start.WellKeyed)
    (ok : (writePlans i config plans start).2.result = .ok ()) :
    (∀ id b, start.bundle? id = some b →
      ∃ c, (writePlans i config plans start).1.bundle? id = some c ∧ c.assetIds = b.assetIds) ∧
    ∀ b ∈ plannedAll i config plans,
      ∃ c, (writePlans i config plans start).1.bundle? b.id = some c ∧ c.assetIds = b.assetIds := by
  induction plans generalizing start with
  | nil => exact ⟨fun id b found => ⟨b, found, rfl⟩, fun b none => absurd none List.not_mem_nil⟩
  | cons p plans ih =>
    obtain ⟨s, filled, grouped, next, same, writes, rest, result⟩ := writePlans_cons_ok ok
    rw [result]
    obtain ⟨grows, _⟩ := writes.standsIn keyed
    obtain ⟨keeps, adds⟩ := addBundles_agree keyed
      (fun _ _ listed => Plan.isDigest_of_planned listed) writes.bundles
    obtain ⟨keepsLater, addsLater⟩ := ih grows.keyed rest
    have later {id : String} {b : Bundle}
        (found : ∃ c, filled.bundle? id = some c ∧ c.assetIds = b.assetIds) :
        ∃ c, (writePlans i config plans next).1.bundle? id = some c ∧
          c.assetIds = b.assetIds := by
      obtain ⟨c, found, holds⟩ := found
      obtain ⟨d, foundLater, holdsLater⟩ :=
        keepsLater id c ((writes.bundle?_eq keyed id).trans found)
      exact ⟨d, foundLater, holdsLater.trans holds⟩
    refine ⟨fun id b found => later (keeps id b found), ?_⟩
    intro b listed
    rcases List.mem_append.1 listed with first | others
    · exact later (adds b (same ▸ first))
    · exact addsLater b others

/-- The bundle that is written first under an id. -/
def firstBundle? (config : Config) (build : Build) (id : String) : Option Bundle :=
  (plannedAll build.index config build.plans).find? fun b => b.id = id

/-- Every bundle is what the first one that has its id was planned to be. -/
theorem exists_first (success : (bundle config g .empty).2.result = .ok ())
    (built : (Bundler.build config g).result = .ok build)
    (isBundle : b ∈ (bundle config g .empty).1.bundles) :
    ∃ first, firstBundle? config build b.id = some first ∧ first.SameContents b ∧
      first.SameLabel b := by
  obtain ⟨_, _, _, _, keyed, _⟩ := bundle_spec success
  obtain ⟨other, sameBuild, wrote⟩ := bundle_ok_iff.1 success
  cases built.symm.trans sameBuild
  obtain ⟨n, bundleAt⟩ := mem_bundles.1 isBundle
  have stored := keyed.bundle?_eq (getElem?_keys_of_bundleAt? bundleAt)
  rw [bundleAt, fst_bundle built wrote] at stored
  have start (id : String) : empty.bundle? id =
      Bundle.gather (([] : List Bundle).filter fun b => b.id = id) := bundle?_empty id
  have gathers := writePlans_gathers wellKeyed_empty start wrote b.id
  exact Bundle.first_of_gather (gathers.symm.trans stored)

/-- Where bundling succeeds, all bundles to write that have one id hold the same assets. -/
theorem assetIds_eq_of_bundle {into : BundleGraph} (keyed : into.WellKeyed)
    (success : (bundle config g into).2.result = .ok ())
    (built : (Bundler.build config g).result = .ok build)
    (left : b ∈ plannedAll (.ofGraph g) config build.plans)
    (right : c ∈ plannedAll (.ofGraph g) config build.plans) (sameId : b.id = c.id) :
    b.assetIds = c.assetIds := by
  obtain ⟨other, sameBuild, wrote⟩ := bundle_ok_iff.1 success
  cases built.symm.trans sameBuild
  rw [(plans_of_build built).1] at wrote
  obtain ⟨_, adds⟩ := writePlans_agree keyed wrote
  obtain ⟨stored, found, holdsLeft⟩ := adds b left
  obtain ⟨again, foundAgain, holdsRight⟩ := adds c right
  rw [sameId, foundAgain] at found
  cases found
  exact holdsLeft.symm.trans holdsRight

theorem firstBundle?_eq_some {id : String} {first : Bundle}
    (isFirst : firstBundle? config build id = some first) :
    first.id = id ∧ ∃ p ∈ build.plans, ∃ origin,
      (origin, .ok first) ∈ p.plannedBundles build.index config :=
  ⟨by simpa using List.find?_some isFirst, mem_plannedAll.1 (List.mem_of_find?_eq_some isFirst)⟩

/-- A bundle holds what every bundle to write that has its id holds. -/
theorem assetIds_of_planned (success : (bundle config g .empty).2.result = .ok ())
    (built : (Bundler.build config g).result = .ok build)
    (isBundle : b ∈ (bundle config g .empty).1.bundles)
    (planned : c ∈ plannedAll (.ofGraph g) config build.plans) (sameId : c.id = b.id) :
    c.assetIds = b.assetIds := by
  obtain ⟨first, isFirst, same, _⟩ := exists_first success built isBundle
  have listed := List.mem_of_find?_eq_some isFirst
  rw [(plans_of_build built).1] at listed
  rw [same.assetIds]
  exact assetIds_eq_of_bundle wellKeyed_empty success built planned listed
    (sameId.trans same.id)

end Bundler

end CodeSplit
