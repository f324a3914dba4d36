import CodeSplit.Proofs.CrossRootEdges
import CodeSplit.Proofs.IndexAgreement
import CodeSplit.Proofs.ManualPrecedence
import CodeSplit.Proofs.ReferenceClosure
import CodeSplit.Proofs.RemovalTermination

/-!
The bundles that a plan asks for. Every bundle of a plan that is returned can be made: all that it
looks up is in the index, and what it holds is not empty. The bundles that a group loads are the
buckets of its members and the shared and manual bundles that some member loads.
-/
namespace CodeSplit

open Digest (IsDigest)

/-! Names. -/

namespace Digest

theorem length_hexDigits (width n : Nat) : (hexDigits width n).length = width := by
  induction width generalizing n with
  | zero => rfl
  | succ width ih => simp [hexDigits, ih]

theorem IsDigest.length {text : String} (digest : IsDigest text) : text.toList.length = 16 := by
  obtain ⟨hash, rfl⟩ := digest
  rw [spell, String.toList_ofList, length_hexDigits]

theorem IsDigest.utf8Size {text : String} (digest : IsDigest text) {c : Char}
    (member : c ∈ text.toList) : c.utf8Size = 1 := by
  have digits : "0123456789abcdef".toList.all (fun c => c.utf8Size = 1) = true := by decide
  exact of_decide_eq_true (List.all_eq_true.1 digits c (digest.mem member))

end Digest

namespace BundleName

/-- Characters of one byte each can be cut anywhere. -/
theorem takeBytes?_eq_take {cs : List Char} (single : ∀ c ∈ cs, c.utf8Size = 1) {n : Nat}
    (enough : n ≤ cs.length) : takeBytes? n cs = some (cs.take n) := by
  induction cs generalizing n with
  | nil =>
    obtain rfl := Nat.le_zero.1 enough
    rfl
  | cons c rest ih =>
    rw [takeBytes?, single c List.mem_cons_self]
    cases n with
    | zero => rfl
    | succ n =>
      have cut := ih (fun d member => single d (List.mem_cons_of_mem _ member))
        (Nat.le_of_succ_le_succ enough)
      simp [cut]

theorem exists_nameHash {id : String} (digest : IsDigest id) : ∃ name, nameHash id = .ok name := by
  have enough : min 8 id.utf8ByteSize ≤ id.toList.length := by
    rw [digest.length]
    omega
  have cut := takeBytes?_eq_take (fun c member => digest.utf8Size member) enough
  exact ⟨_, by rw [nameHash, cut]⟩

theorem exists_hashedName (stem : String) {id : String} (digest : IsDigest id)
    (fileType : FileType) : ∃ name, hashedName stem id fileType = .ok name := by
  obtain ⟨hash, made⟩ := exists_nameHash digest
  exact ⟨_, bind_eq_ok_iff.2 ⟨hash, made, rfl⟩⟩

theorem exists_sharedName {id : String} (digest : IsDigest id) (fileType : FileType) :
    ∃ name, sharedName id fileType = .ok name := by
  obtain ⟨hash, made⟩ := exists_nameHash digest
  exact ⟨_, bind_eq_ok_iff.2 ⟨hash, made, rfl⟩⟩

end BundleName

/-! Plans whose bundles can be made. -/

namespace Index

/-- An id is that of one key at most. -/
def IdsDiffer (i : Index) : Prop := ∀ a b id, i.idOf a = .ok id → i.idOf b = .ok id → a = b

theorem getElem?_idsOfGraph {g : AssetGraph} {k : AssetKey} {id : String}
    (named : (ofGraph g).idOf k = .ok id) : (idsOfGraph g)[k]? = some id := by
  obtain ⟨asset, isAsset, rfl⟩ := map_eq_ok_iff.1 named
  obtain ⟨entry, indexed, rfl⟩ := Option.map_eq_some_iff.1 (asset_eq_ok_iff.1 isAsset)
  rw [indexed?_ofGraph] at indexed
  obtain ⟨id, found, made⟩ := Option.bind_eq_some_iff.1 indexed
  unfold indexedOfGraph? at made
  obtain ⟨node, last, rfl⟩ := Option.map_eq_some_iff.1 made
  have same := (List.mem_filter.1 (List.mem_of_getLast? last)).2
  rw [found, of_decide_eq_true same]

/-- Every id of the graph has an asset in its place. -/
theorem idOf_ofGraph {g : AssetGraph} {k : AssetKey} {id : String}
    (found : (idsOfGraph g)[k]? = some id) : (ofGraph g).idOf k = .ok id := by
  obtain ⟨entry, made⟩ := Option.isSome_iff_exists.1
    (isSome_indexedOfGraph? (List.mem_of_getElem? found) (idsOfGraph g))
  have indexed : (ofGraph g).indexed? k = some entry := by
    rw [indexed?_ofGraph, found, Option.bind_some, made]
  have isAsset : (ofGraph g).asset? k = some entry.asset := by
    rw [asset?, indexed, Option.map_some]
  have named : (ofGraph g).idOf k = .ok entry.asset.id :=
    map_eq_ok_iff.2 ⟨entry.asset, asset_eq_ok_iff.2 isAsset, rfl⟩
  have same := (getElem?_idsOfGraph named).symm.trans found
  rw [named, Option.some.inj same]

/-- The ids of assets tell which assets they are. -/
theorem IdsDiffer.idsOf_inj {i : Index} (differ : i.IdsDiffer) {s t : KeySet AssetKey}
    {ids : List String} (left : i.idsOf s = .ok ids) (right : i.idsOf t = .ok ids) : s = t := by
  have inside {s t : KeySet AssetKey} (left : i.idsOf s = .ok ids) (right : i.idsOf t = .ok ids)
      {x : AssetKey} (member : x ∈ s) : x ∈ t := by
    obtain ⟨id, listed, isId⟩ := exists_of_mem_mapM left member
    obtain ⟨y, memberToo, isIdToo⟩ := exists_of_mem_result right listed
    rw [differ x y id isId isIdToo]
    exact memberToo
  exact KeySet.ext fun x => ⟨inside left right, inside right left⟩

theorem idsDiffer_ofGraph (g : AssetGraph) : (ofGraph g).IdsDiffer := by
  intro a b id left right
  have places := (getElem?_idsOfGraph left).trans (getElem?_idsOfGraph right).symm
  exact (List.getElem?_inj (List.getElem?_eq_some_iff.1 (getElem?_idsOfGraph left)).1
    nodup_idsOfGraph).1 places

end Index

namespace Plan

variable {p q : Plan} {i : Index} {config : Config} {entries : List Entry}
  {group root : AssetKey} {r : Root} {fileType : FileType} {assets : KeySet AssetKey}

/-- What writing a plan relies on. -/
structure Writable (p : Plan) (i : Index) : Prop where
  within : p.Within i.Known
  named : ∀ key r, p.root? key = some r → i.idOf key = .ok r.assetId
  owners : ∀ key x, p.Packages key x → ∃ r, p.root? key = some r
  several : p.Several
  shared : ∀ b ∈ p.liveSharedBundles, ∃ x, x ∈ b.assets
  manual : ∀ key b, p.manualBundles.get? key = some b → ∃ x, x ∈ b.assets
  declared : ∀ e ∈ p.edges, i.Known e.declaredBy
  rooted : p.Rooted
  assigned : p.Assigned

theorem declared_of_places {placed : Plan} (places : i.Places config entries placed) :
    ∀ e ∈ placed.edges, i.Known e.declaredBy := by
  obtain ⟨_, shape⟩ := places.sameShape
  intro e listed
  rw [shape.edges] at listed
  obtain ⟨link, member, _⟩ := Index.link_of_mem_bundleEdges listed
  have inside := List.mem_range.1 (Index.mem_keys_of_links (List.ne_nil_of_mem member))
  refine ⟨(i.assets[e.declaredBy]).asset, Index.asset_eq_ok_iff.2 ?_⟩
  exact Option.map_eq_some_iff.2 ⟨_, List.getElem?_eq_getElem inside, rfl⟩

/-- Spreading a reused root copies edges, and the copies stand for the same dependencies. -/
theorem Removes.declared (removes : p.Removes i group q)
    (declared : ∀ e ∈ p.edges, i.Known e.declaredBy) : ∀ e ∈ q.edges, i.Known e.declaredBy := by
  intro e listed
  rcases removes.effects with enriches | ⟨reused, reusers, _, spreads, enriches⟩
  · rw [enriches.edges] at listed
    exact declared e listed
  · rw [enriches.edges] at listed
    rcases (spreads.edges e).1 listed with old | ⟨_, _, old, isEdge, _, _, rfl⟩
    · exact declared e old
    · exact declared old isEdge

/-- Only roots package anything. -/
theorem owners_of_planTarget (success : (i.planTarget config entries).result = .ok p) :
    ∀ key x, p.Packages key x → ∃ r, p.root? key = some r := by
  obtain ⟨entry, _, walked, reach, packing, extracted, e, placed, walks, consumed, moved, shared,
    limited⟩ := Index.planTarget_ok success
  have admits : placed.Admits fun key _ => ∃ r, (i.roots entries).get? key = some r := by
    refine admits_of_passes walks moved shared ?_ ?_
    · intro x m left
      obtain ⟨rfl, rfl⟩ := Index.walkedPlan_ok walks
      obtain ⟨_, _, _, _, packs⟩ := isPacking_of_consumers consumed
      have waits := mem_consumers_of_extraction (extractManualBundles_ok moved).1 left
      obtain ⟨r, isRoot, _⟩ := Index.mem_reachedBy.1 ((packs x m).1 waits).1
      exact ⟨r, isRoot⟩
    · intro a b reuses _ _
      obtain ⟨rfl, rfl⟩ := Index.walkedPlan_ok walks
      obtain ⟨r, isRoot, _⟩ := Index.mem_reusedRoots.1 reuses
      exact ⟨r, isRoot⟩
  intro key x packages
  rw [root?, Index.roots_of_planTarget success]
  exact (admits.limitRequests limited).packages key x packages

/-- No manual bundle is empty. -/
theorem manual_of_planTarget (success : (i.planTarget config entries).result = .ok p)
    {key : ManualKey} {b : ManualBundle} (found : p.manualBundles.get? key = some b) :
    ∃ x, x ∈ b.assets := by
  obtain ⟨entry, _, walked, reach, packing, extracted, e, placed, walks, consumed, moved, shared,
    limited⟩ := Index.planTarget_ok success
  have places := Index.places_of_passes walks consumed moved shared
  have empty : walked.manualBundles = ∅ := by rw [(Index.walkedPlan_ok walks).1]; rfl
  obtain ⟨extraction, rfl⟩ := extractManualBundles_ok moved
  have follows := Extraction.follows_extraction empty extraction
  obtain ⟨old, before, same⟩ :=
    (carries_limitRequests (rootsReuse_of_places places) limited).manual key b found
  rw [manualBundles_shareAssets shared] at before
  rw [same]
  exact follows.filled key old before

/-- A plan that is returned can be written. -/
theorem writable_of_planTarget (success : (i.planTarget config entries).result = .ok p) :
    p.Writable i := by
  obtain ⟨placed, places, limited⟩ := Index.places_of_planTarget success
  obtain ⟨well, several⟩ := sharesWell_of_places places
  obtain ⟨well, several⟩ := sharesWell_limitRequests well several
    (rootsReuse_of_places places) limited
  obtain ⟨_, run⟩ := removesIn_of_limitRequests limited
  constructor
  case within => exact run.within places.within_known
  case named =>
    intro key r known
    rw [root?, Index.roots_of_planTarget success] at known
    obtain ⟨_, asset, isAsset, rfl⟩ := Index.get?_roots_eq_some_iff.1 known
    exact map_eq_ok_iff.2 ⟨asset, Index.asset_eq_ok_iff.2 isAsset, rfl⟩
  case owners => exact owners_of_planTarget success
  case several => exact several
  case shared => exact fun b live => (well.fit b (List.mem_filter.1 live).1).nonempty
  case manual => exact fun _ _ found => manual_of_planTarget success found
  case declared =>
    exact run.keeps (motive := fun q => ∀ e ∈ q.edges, i.Known e.declaredBy)
      (fun _ _ _ declared removes => removes.declared declared) (declared_of_places places)
  case rooted =>
    exact run.keeps (motive := Rooted) (fun _ _ _ rooted removes => rooted.of_fills removes.fills)
      (rooted_of_places places)
  case assigned => exact assigned_of_planTarget success

/-! Making the bundles. -/

theorem exists_bucketBundle (isRoot : i.Known root) (known : ∀ x ∈ assets, i.Known x) :
    ∃ b, p.bucketBundle i config root r fileType assets = .ok b := by
  unfold bucketBundle
  refine exists_bind_ok (exists_bind_ok isRoot fun asset _ => ⟨_, rfl⟩) ?_
  intro stem _
  refine exists_bind_ok (Index.exists_idsOf known) ?_
  intro ids _
  refine exists_bind_ok (Index.exists_totalSize known) ?_
  intro size _
  simp only []
  split
  · exact ⟨_, rfl⟩
  · refine exists_bind_ok (BundleName.exists_hashedName stem ?_ fileType) fun name _ => ⟨_, rfl⟩
    exact isDigest_bundleId ids fileType p.target.distDir

theorem exists_consumerEnv (consumers : KeySet AssetKey) (some : ∃ x, x ∈ assets)
    (known : ∀ x ∈ assets, i.Known x) : ∃ env, p.consumerEnv i consumers assets = .ok env := by
  unfold consumerEnv
  cases consumers.toList.findSome? p.root? with
  | some r => exact ⟨r.env, rfl⟩
  | none =>
    cases first : assets.toList.head? with
    | none =>
      obtain ⟨x, member⟩ := some
      rw [KeySet.mem_def, List.head?_eq_none_iff.1 first] at member
      cases member
    | some x =>
      obtain ⟨asset, isAsset⟩ := known x (List.mem_of_head? first)
      exact ⟨asset.env, map_eq_ok_iff.2 ⟨asset, isAsset, rfl⟩⟩

theorem exists_sharedBundle {b : SharedBundle} (several : 2 ≤ b.consumers.size)
    (some : ∃ x, x ∈ b.assets) (known : ∀ x ∈ b.assets, i.Known x) :
    ∃ made, p.sharedBundle i b = .ok made := by
  unfold sharedBundle
  rw [if_neg (Nat.not_lt.2 several)]
  refine exists_bind_ok (Index.exists_idsOf known) ?_
  intro ids _
  refine exists_bind_ok (BundleName.exists_sharedName ?_ b.fileType) ?_
  · exact isDigest_bundleId ids b.fileType p.target.distDir
  · intro name _
    exact exists_bind_ok (exists_consumerEnv b.consumers some known) fun env _ => ⟨_, rfl⟩

theorem exists_manualBundle (key : ManualKey) {b : ManualBundle} (some : ∃ x, x ∈ b.assets)
    (known : ∀ x ∈ b.assets, i.Known x) : ∃ made, p.manualBundle i key b = .ok made := by
  unfold manualBundle
  refine exists_bind_ok (BundleName.exists_hashedName key.qualifiedName ?_ key.fileType) ?_
  · exact isDigest_manualBundleId key.qualifiedName key.fileType p.target.distDir
  intro name _
  refine exists_bind_ok (exists_consumerEnv b.consumers some known) ?_
  intro env _
  refine exists_bind_ok (Index.exists_totalSize known) ?_
  intro size _
  exact exists_bind_ok (Index.exists_idsOf known) fun ids _ => ⟨_, rfl⟩

/-- All bundles of the plan can be made. -/
theorem Writable.exists_planned (writable : p.Writable i)
    {entry : BundleOrigin × Except Fault Bundle} (listed : entry ∈ p.plannedBundles i config) :
    ∃ b, entry.2 = .ok b := by
  obtain ⟨origin, planned⟩ := entry
  cases origin with
  | bucket root fileType =>
    obtain ⟨r, assets, known, placed, _, rfl⟩ := mem_plannedBundles_bucket.1 listed
    refine exists_bucketBundle (writable.within.roots root r known) ?_
    intro x member
    exact writable.within.packages root x
      ⟨fileType, KeyMap.mem_setAt_iff.2 ⟨assets, placed, member⟩⟩
  | loaded fileType consumers =>
    rcases mem_plannedBundles_loaded.1 listed with
      ⟨b, live, _, _, made⟩ | ⟨key, b, found, _, _, made⟩
    · rw [made]
      exact exists_sharedBundle (writable.several b live) (writable.shared b live)
        (writable.within.shared b (List.mem_of_mem_filter live)).1
    · rw [made]
      exact exists_manualBundle key (writable.manual key b found)
        (writable.within.manual key b found).1

/-- The bundle of a bucket that is not empty is among those to write. -/
theorem Writable.exists_bucketPlanned (writable : p.Writable i) (config : Config)
    (known : p.root? root = some r) (placed : (p.buckets root).get? fileType = some assets)
    (some : assets.isEmpty = false) :
    ∃ b, p.bucketBundle i config root r fileType assets = .ok b ∧
      (.bucket root fileType, .ok b) ∈ p.plannedBundles i config := by
  have listed : (BundleOrigin.bucket root fileType,
      p.bucketBundle i config root r fileType assets) ∈ p.plannedBundles i config :=
    mem_plannedBundles_bucket.2 ⟨r, assets, known, placed, some, rfl⟩
  obtain ⟨b, made⟩ := writable.exists_planned listed
  exact ⟨b, made, made ▸ listed⟩

/-! What groups load. -/

/-- What a group loads, by the type, by the assets and by whether it is written into other bundles:
the buckets of its members, and the shared and manual bundles that a member loads. -/
inductive GroupLoads (p : Plan) (group : AssetKey) : FileType → KeySet AssetKey → Bool → Prop
  | bucket {root : AssetKey} {fileType : FileType} {assets : KeySet AssetKey}
      (member : root ∈ p.members group) (placed : (p.buckets root).get? fileType = some assets)
      (some : assets.isEmpty = false) :
      GroupLoads p group fileType assets ((p.root? root).any Root.isInline)
  | shared {b : SharedBundle} {c : AssetKey} (live : b ∈ p.liveSharedBundles)
      (consumer : c ∈ b.consumers) (member : c ∈ p.members group) :
      GroupLoads p group b.fileType b.assets false
  | manual {key : ManualKey} {b : ManualBundle} {c : AssetKey}
      (found : p.manualBundles.get? key = some b) (consumer : c ∈ b.consumers)
      (member : c ∈ p.members group) : GroupLoads p group key.fileType b.assets false

/-- The group loads the bundles of this origin. -/
def LoadsOrigin (p : Plan) (group : AssetKey) : BundleOrigin → Prop
  | .bucket root _ => root ∈ p.members group
  | .loaded _ consumers => ∃ c ∈ consumers, c ∈ p.members group

/-- The bundle is one to write that the group loads. -/
def LoadsBundle (p : Plan) (i : Index) (config : Config) (group : AssetKey) (b : Bundle) : Prop :=
  ∃ origin, (origin, .ok b) ∈ p.plannedBundles i config ∧ p.LoadsOrigin group origin

theorem isInline_of_behavior {b : Bundle} (same : b.behavior = r.behavior) :
    b.isInline = r.isInline := by
  rw [Bundle.isInline, same, Root.behavior]
  cases r.isInline <;> cases r.triggers.isolated <;> rfl

theorem LoadsBundle.groupLoads {b : Bundle} (loads : p.LoadsBundle i config group b) :
    ∃ fileType assets, p.GroupLoads group fileType assets b.isInline ∧
      b.Holds i fileType assets := by
  obtain ⟨origin, listed, loads⟩ := loads
  cases origin with
  | bucket root fileType =>
    obtain ⟨r, assets, known, placed, some, made⟩ := mem_plannedBundles_bucket.1 listed
    obtain ⟨_, holds, behavior, _⟩ := bucketBundle_ok made.symm
    have loaded := GroupLoads.bucket loads placed some
    rw [known, Option.any_some, ← isInline_of_behavior behavior] at loaded
    exact ⟨fileType, assets, loaded, holds⟩
  | loaded fileType consumers =>
    obtain ⟨c, consumer, member⟩ := loads
    rcases mem_plannedBundles_loaded.1 listed with
      ⟨shared, live, _, same, made⟩ | ⟨key, manual, found, _, same, made⟩
    · obtain ⟨_, holds, behavior, _⟩ := sharedBundle_ok made.symm
      rw [Bundle.isInline, behavior]
      exact ⟨_, _, .shared live (same ▸ consumer) member, holds⟩
    · obtain ⟨_, holds, behavior, _⟩ := manualBundle_ok made.symm
      rw [Bundle.isInline, behavior]
      exact ⟨_, _, .manual found (same ▸ consumer) member, holds⟩

theorem Writable.exists_loadsBundle (writable : p.Writable i) (config : Config) {inline : Bool}
    (loads : p.GroupLoads group fileType assets inline) :
    ∃ b, p.LoadsBundle i config group b ∧ b.Holds i fileType assets ∧ b.isInline = inline := by
  cases loads with
  | @bucket root fileType assets member placed some =>
    have filled : ∃ x, x ∈ assets := by
      by_contra none
      rw [KeySet.isEmpty_iff.2 fun x inside => none ⟨x, inside⟩] at some
      cases some
    obtain ⟨x, inside⟩ := filled
    obtain ⟨r, known⟩ := writable.owners root x
      ⟨fileType, KeyMap.mem_setAt_iff.2 ⟨assets, placed, inside⟩⟩
    obtain ⟨b, made, listed⟩ := writable.exists_bucketPlanned config known placed some
    obtain ⟨_, holds, behavior, _⟩ := bucketBundle_ok made
    rw [known]
    exact ⟨b, ⟨_, listed, member⟩, holds, isInline_of_behavior behavior⟩
  | @shared b c live consumer member =>
    have listed : (BundleOrigin.loaded b.fileType b.consumers, p.sharedBundle i b) ∈
        p.plannedBundles i config :=
      mem_plannedBundles_loaded.2 (.inl ⟨b, live, rfl, rfl, rfl⟩)
    obtain ⟨written, made⟩ := writable.exists_planned listed
    obtain ⟨_, holds, behavior, _⟩ := sharedBundle_ok made
    rw [show p.sharedBundle i b = .ok written from made] at listed
    exact ⟨written, ⟨_, listed, c, consumer, member⟩, holds, by rw [Bundle.isInline, behavior]; rfl⟩
  | @manual key b c found consumer member =>
    have listed : (BundleOrigin.loaded key.fileType b.consumers, p.manualBundle i key b) ∈
        p.plannedBundles i config :=
      mem_plannedBundles_loaded.2 (.inr ⟨key, b, found, rfl, rfl, rfl⟩)
    obtain ⟨written, made⟩ := writable.exists_planned listed
    obtain ⟨_, holds, behavior, _⟩ := manualBundle_ok made
    rw [show p.manualBundle i key b = .ok written from made] at listed
    exact ⟨written, ⟨_, listed, c, consumer, member⟩, holds, by rw [Bundle.isInline, behavior]; rfl⟩

/-- A root enters by one bundle to write, which has what is in its main bucket. -/
theorem Writable.exists_main (writable : p.Writable i) (differ : i.IdsDiffer) (config : Config)
    (known : p.root? root = some r) :
    ∃ b, (.bucket root (p.bucketType root r.fileType), .ok b) ∈ p.plannedBundles i config ∧
      r.assetId ∈ b.entryAssetIds ∧ ∀ origin c, (origin, .ok c) ∈ p.plannedBundles i config →
        r.assetId ∈ c.entryAssetIds → c = b := by
  obtain ⟨assets, placed, some⟩ := writable.rooted.exists_bucket known
  obtain ⟨b, made, listed⟩ := writable.exists_bucketPlanned config known placed some
  obtain ⟨_, _, _, entry⟩ := bucketBundle_ok made
  rw [if_pos rfl] at entry
  refine ⟨b, listed, entry ▸ List.mem_singleton_self _, ?_⟩
  intro origin c otherListed enters
  cases origin with
  | loaded fileType consumers =>
    rcases mem_plannedBundles_loaded.1 otherListed with
      ⟨_, _, _, _, otherMade⟩ | ⟨_, _, _, _, _, otherMade⟩
    · rw [(sharedBundle_ok otherMade.symm).2.2.2] at enters
      cases enters
    · rw [(manualBundle_ok otherMade.symm).2.2.2] at enters
      cases enters
  | bucket other fileType =>
    obtain ⟨s, otherAssets, isRoot, otherPlaced, _, otherMade⟩ :=
      mem_plannedBundles_bucket.1 otherListed
    obtain ⟨_, _, _, otherEntry⟩ := bucketBundle_ok otherMade.symm
    rw [otherEntry] at enters
    split at enters
    · rename_i isMain
      subst isMain
      -- the id of the root is that of its asset, so the bucket is of the same root
      have sameId := List.mem_singleton.1 enters
      have same : root = other := differ root other r.assetId (writable.named root r known)
        (sameId ▸ writable.named other s isRoot)
      subst same
      cases known.symm.trans isRoot
      cases placed.symm.trans otherPlaced
      exact Except.ok.inj (otherMade.trans made)
    · cases enters

end Plan

end CodeSplit
