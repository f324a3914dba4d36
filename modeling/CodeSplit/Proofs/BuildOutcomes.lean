import CodeSplit.Proofs.Homogeneity
import CodeSplit.Proofs.IndexTables
import CodeSplit.Proofs.PassProgress

/-!
When a build fails: exactly if the graph has no entry, or an entry that leads to no asset. The index
has a key for every asset of the graph and an asset for every key, each target has entries, and no
pass fails on them. Sums of sizes stay below the bound of 64 bits, since every sum is over assets
that differ: those of one set, or those of the bundles of a reused root, which are of different
types.
-/
namespace CodeSplit

theorem total_flatMap {α β : Type} (f : α → List β) (weight : β → Nat) (xs : List α) :
    total (xs.map fun x => total ((f x).map weight)) = total ((xs.flatMap f).map weight) := by
  induction xs with
  | nil => rfl
  | cons x xs ih =>
    rw [List.map_cons, total_cons, ih, List.flatMap_cons, List.map_append, total_append]

namespace AssetGraph

/-- No dependency of the graph is an entry. -/
def Entryless (g : AssetGraph) : Prop := ∀ n d, (n, d) ∈ g.dependencies → d.isEntry = false

/-- The dependency is an entry of the graph that leads to no asset. -/
def Unresolved (g : AssetGraph) (d : Dependency) : Prop :=
  d.isEntry = true ∧ ∃ n, (n, d) ∈ g.dependencies ∧ g.resolve? n = none

end AssetGraph

namespace Index

variable {i : Index} {g : AssetGraph} {config : Config} {entries : List Entry}

section Sizes

/-- Keys and sizes of assets are numbers of 32 bits. -/
structure Small (i : Index) : Prop where
  few : i.size ≤ 2 ^ 32
  sizes : ∀ k asset, i.asset? k = some asset → asset.size < 2 ^ 32

theorem Known.lt_size {k : AssetKey} (known : i.Known k) : k < i.size := by
  obtain ⟨asset, isAsset⟩ := known
  obtain ⟨entry, indexed, _⟩ := Option.map_eq_some_iff.1 (asset_eq_ok_iff.1 isAsset)
  exact (List.getElem?_eq_some_iff.1 indexed).1

/-- The sizes of different assets add up to a number of 64 bits. -/
theorem Small.total_lt (small : i.Small) {ks : List AssetKey} (nodup : ks.Nodup)
    (known : ∀ k ∈ ks, i.Known k) : total (ks.map i.weight) < 2 ^ 64 := by
  have few : ks.length ≤ i.size := by
    have inside : ks ⊆ i.keys := fun k member => List.mem_range.2 (known k member).lt_size
    have shorter := nodup.length_le_of_subset inside
    rwa [keys, List.length_range] at shorter
  have each : ∀ k ∈ ks, i.weight k ≤ 2 ^ 32 - 1 := by
    intro k member
    obtain ⟨asset, isAsset⟩ := known k member
    have isAsset := asset_eq_ok_iff.1 isAsset
    have size := small.sizes k asset isAsset
    simp only [weight, isAsset, Option.map_some, Option.getD_some]
    omega
  calc total (ks.map i.weight) ≤ ks.length * (2 ^ 32 - 1) := total_map_le_mul each
    _ ≤ 2 ^ 32 * (2 ^ 32 - 1) := Nat.mul_le_mul_right _ (few.trans small.few)
    _ < 2 ^ 64 := by decide

end Sizes

section OfGraph

/-- Every asset of the graph has a key. -/
theorem exists_keyOf {a : Asset} (listed : .asset a ∈ g.nodes) :
    ∃ k, (ofGraph g).keyOf? a.id = some k ∧ (ofGraph g).idOf k = .ok a.id := by
  obtain ⟨place, isId⟩ := List.mem_iff_getElem?.1 (mem_idsOfGraph.2 ⟨a, listed, rfl⟩)
  obtain ⟨asset, isAsset, named⟩ := map_eq_ok_iff.1 (idOf_ofGraph isId)
  obtain ⟨entry, indexed, rfl⟩ := Option.map_eq_some_iff.1 (asset_eq_ok_iff.1 isAsset)
  have any : ((ofGraph g).keyOf? a.id).isSome = true := by
    unfold keyOf?
    rw [List.findIdx?_isSome, List.any_eq_true]
    exact ⟨entry, List.mem_of_getElem? indexed, by simpa using named⟩
  obtain ⟨k, found⟩ := Option.isSome_iff_exists.1 any
  refine ⟨k, found, ?_⟩
  obtain ⟨inside, same, _⟩ := List.findIdx?_eq_some_iff_getElem.1 found
  refine map_eq_ok_iff.2 ⟨_, asset_eq_ok_iff.2 ?_, of_decide_eq_true same⟩
  rw [asset?, indexed?, List.getElem?_eq_getElem inside, Option.map_some]

/-- There are no more keys than assets of the graph. -/
theorem size_ofGraph_le (g : AssetGraph) : (ofGraph g).size ≤ g.assets.length := by
  have shorter : (idsOfGraph g).length ≤ (g.assets.map fun a => a.2.id).length :=
    nodup_idsOfGraph.length_le_of_subset fun _ member => KeySet.mem_ofList.1 member
  rw [List.length_map] at shorter
  exact (List.length_filterMap_le _ _).trans shorter

theorem small_ofGraph (few : g.assets.length ≤ 2 ^ 32)
    (small : ∀ a, .asset a ∈ g.nodes → a.size < 2 ^ 32) : (ofGraph g).Small := by
  refine ⟨(size_ofGraph_le g).trans few, ?_⟩
  intro k asset isAsset
  obtain ⟨entry, indexed, rfl⟩ := Option.map_eq_some_iff.1 isAsset
  exact small entry.asset (asset_mem_nodes indexed)

end OfGraph

section Entries

/-- An entry fails exactly if it leads to no asset: every asset that it can lead to has a key. -/
theorem entryOf_eq_error_iff {n : NodeId} {d : Dependency} {fault : Fault} :
    (ofGraph g).entryOf g n d = .error fault ↔
      g.resolve? n = none ∧ fault = .failure (.unresolvedEntry d.specifier) := by
  unfold entryOf
  cases found : g.resolve? n with
  | none => simp [eq_comm]
  | some m =>
    have isAsset : (g.asset? m).isSome = true := by
      have holds := List.find?_some found
      exact holds
    obtain ⟨a, isAsset⟩ := Option.isSome_iff_exists.1 isAsset
    obtain ⟨k, isKey, _⟩ :=
      exists_keyOf (List.mem_of_getElem? (AssetGraph.asset?_eq_some_iff.1 isAsset))
    simp [isAsset, isKey]

/-- Looking up the entries fails only for the two reasons that have a message. -/
theorem fault_of_entriesByTarget {fault : Fault}
    (failed : (ofGraph g).entriesByTarget g = .error fault) :
    (g.Entryless ∧ fault = .failure .noEntryDependencies) ∨
      ∃ d, g.Unresolved d ∧ fault = .failure (.unresolvedEntry d.specifier) := by
  unfold entriesByTarget at failed
  simp only [] at failed
  split at failed
  · rename_i none
    cases failed
    refine .inl ⟨?_, rfl⟩
    intro n d listed
    rw [Bool.eq_false_iff]
    intro entry
    have member := mem_entryDependencies_iff.2 ⟨listed, entry⟩
    rw [List.isEmpty_iff.1 none] at member
    cases member
  · rcases bind_eq_error_iff.1 failed with failed | ⟨_, _, failed⟩
    · obtain ⟨⟨n, d⟩, listed, failed⟩ := exists_of_mapM_error failed
      obtain ⟨unresolved, isFault⟩ := entryOf_eq_error_iff.1 failed
      obtain ⟨member, entry⟩ := mem_entryDependencies_iff.1 listed
      exact .inr ⟨d, ⟨entry, n, member, unresolved⟩, isFault⟩
    · cases failed

/-- Once the entries are found, there are some, and all of them lead to assets. -/
theorem resolved_of_entriesByTarget {m : KeyMap String (List Entry)}
    (success : (ofGraph g).entriesByTarget g = .ok m) :
    ¬g.Entryless ∧ ∀ d, ¬g.Unresolved d := by
  unfold entriesByTarget at success
  simp only [] at success
  split at success
  · cases success
  · rename_i some
    obtain ⟨all, each, _⟩ := bind_eq_ok_iff.1 success
    constructor
    · intro none
      refine some (List.isEmpty_iff.2 (List.eq_nil_iff_forall_not_mem.2 ?_))
      rintro ⟨n, d⟩ listed
      obtain ⟨member, entry⟩ := mem_entryDependencies_iff.1 listed
      rw [none n d member] at entry
      cases entry
    · rintro d ⟨entry, n, member, unresolved⟩
      obtain ⟨_, _, made⟩ := exists_of_mem_mapM each (mem_entryDependencies_iff.2 ⟨member, entry⟩)
      rw [entryOf_eq_error_iff.2 ⟨unresolved, rfl⟩] at made
      cases made

/-- Every target that entries are sorted by has one of them. -/
theorem ne_nil_of_foldl_update (entries : List Entry) {m : KeyMap String (List Entry)}
    (before : ∀ name sorted, m.get? name = some sorted → sorted ≠ []) {name : String}
    {sorted : List Entry}
    (found : (entries.foldl (fun m e => m.update e.target.name [] (· ++ [e])) m).get? name =
      some sorted) : sorted ≠ [] := by
  induction entries generalizing m with
  | nil => exact before name sorted found
  | cons e entries ih =>
    refine ih ?_ found
    intro other listed known
    rw [KeyMap.get?_update] at known
    split at known
    · cases known
      simp
    · exact before other listed known

theorem entries_ne_nil {m : KeyMap String (List Entry)} (success : i.entriesByTarget g = .ok m)
    {name : String} (found : m.get? name = some entries) : entries ≠ [] := by
  unfold entriesByTarget at success
  simp only [] at success
  split at success
  · cases success
  · obtain ⟨all, _, success⟩ := bind_eq_ok_iff.1 success
    cases success
    exact ne_nil_of_foldl_update all (fun _ _ none => by cases none) found

end Entries

end Index

namespace Plan

variable {p : Plan} {i : Index}

theorem mem_bucket_of_entry {root x : AssetKey} {entry : FileType × KeySet AssetKey}
    (listed : entry ∈ (p.buckets root).entries) (member : x ∈ entry.2) :
    x ∈ p.bucket root entry.1 :=
  KeyMap.mem_setAt_iff.2 ⟨entry.2, KeyMap.get?_eq_some_iff.2 listed, member⟩

/-- The bundles of a root that is not a single file are of different types, so that no asset is in
two of them. -/
theorem Homogeneous.nodup_buckets (homogeneous : p.Homogeneous i) {root : AssetKey}
    (plain : p.Plain root) : ((p.buckets root).entries.flatMap fun e => e.2.toList).Nodup := by
  have types := (p.buckets root).nodup_keys
  unfold KeyMap.keys List.Nodup at types
  rw [List.pairwise_map] at types
  refine List.nodup_flatMap.2 ⟨fun e _ => e.2.nodup_toList, types.imp_of_mem ?_⟩
  intro a b listed listedToo differ x member memberToo
  obtain ⟨_, asset, isAsset, type⟩ :=
    homogeneous.packages root plain a.1 x (mem_bucket_of_entry listed member)
  obtain ⟨_, other, isAssetToo, typeToo⟩ :=
    homogeneous.packages root plain b.1 x (mem_bucket_of_entry listedToo memberToo)
  cases isAsset.symm.trans isAssetToo
  exact differ (type.symm.trans typeToo)

theorem total_buckets_lt (small : i.Small) (within : p.Within i.Known)
    (homogeneous : p.Homogeneous i) {reuser reused : AssetKey} (reuses : p.Reuses reuser reused) :
    ∃ sizes, (p.buckets reused).values.mapM i.totalSize = .ok sizes ∧ total sizes < 2 ^ 64 := by
  have known : ∀ entry ∈ (p.buckets reused).entries, ∀ x ∈ entry.2, i.Known x :=
    fun entry listed x member =>
      within.packages reused x ⟨entry.1, mem_bucket_of_entry listed member⟩
  refine ⟨(p.buckets reused).entries.map fun e => total (e.2.toList.map i.weight), ?_, ?_⟩
  · unfold KeyMap.values
    rw [List.mapM_map]
    exact mapM_eq_ok fun e listed => Index.totalSize_eq_total (known e listed)
  · rw [total_flatMap (fun e : FileType × KeySet AssetKey => e.2.toList)]
    refine small.total_lt
      (homogeneous.nodup_buckets (homogeneous.reused reuser reused reuses).2) ?_
    intro x member
    obtain ⟨e, listed, held⟩ := List.mem_flatMap.1 member
    exact known e listed x held

end Plan

namespace Index

variable {i : Index} {g : AssetGraph} {config : Config} {entries : List Entry}

/-- All that the passes of a target look up is there, and what they add up does not overflow. This
includes the plans that limiting goes through, also if it does not come to an end. -/
structure Safe (i : Index) (config : Config) (entries : List Entry) : Prop where
  entered : entries ≠ []
  resolved : ∀ a b, i.Resolves a b → i.Known b
  reachable : ∀ x ∈ i.reachable entries, i.Known x
  roots : ∀ key root, (i.roots entries).get? key = some root → i.Known key
  reached : ∀ key, ∀ x ∈ (i.reach (i.roots entries)).reachedBy key, i.Known x
  edges : ∀ e ∈ i.bundleEdges (i.roots entries), ∃ source target,
    (i.roots entries).get? e.source = some source ∧ (i.roots entries).get? e.target = some target ∧
      i.Known e.declaredBy
  groups : ∀ target walked reach, (i.walkedPlan target entries).result = .ok (walked, reach) →
    ∃ graph available, walked.groupGraph reach = .ok graph ∧
      graph.availability.result = .ok available ∧ ∀ n ∈ graph.groups,
        (∃ loads, graph.loaded.get? n = some loads) ∧ ∀ m ∈ graph.parentsOf n, m ∈ graph.groups
  sizes : ∀ ks : KeySet AssetKey, (∀ k ∈ ks, i.Known k) →
    ∃ size, i.totalSize ks = .ok size ∧ size < 2 ^ 64
  removals : ∀ placed count p, i.Places config entries placed → Plan.RemovesIn i count placed p →
    p.Within i.Known ∧
    (∀ group removal place, p.nextRemoval? i group = .ok (some removal) →
      removal.subject = .shared place → place < p.sharedBundles.length) ∧
    ∀ reuser reused, p.Reuses reuser reused → ∃ sizes,
      (p.buckets reused).values.mapM i.totalSize = .ok sizes ∧ total sizes < 2 ^ 64

theorem Covers.safe (covers : i.Covers entries) (some : entries ≠ []) (small : i.Small)
    (byId : i.EnvironmentsById) (config : Config) : i.Safe config entries where
  entered := some
  resolved := fun a b resolves => (covers.resolved a b resolves).imp fun _ => asset_eq_ok_iff.2
  reachable := fun x member => covers.known (mem_reachable.1 member)
  roots := fun key root found => .of_root found
  reached := fun key x reached => covers.known (.of_reachedBy reached)
  edges := by
    intro e listed
    obtain ⟨⟨source, isRoot⟩, target, isRootToo, _⟩ := exists_roots_of_edge covers.resolved listed
    obtain ⟨key, root, known, asset, walked, crossing⟩ := mem_bundleEdges.1 listed
    obtain ⟨rfl, rfl, _⟩ := cross_cases crossing
    have reached := mem_reachedBy.2 ⟨root, known, walked⟩
    exact ⟨source, target, isRoot, isRootToo, covers.known (.of_reachedBy reached)⟩
  groups := by
    intro target walked reach walks
    obtain ⟨graph, built⟩ := exists_groupGraph covers.resolved walks
    have wellFormed := Plan.wellFormed_groupGraph built
    obtain ⟨available, computed⟩ := wellFormed.exists_availability
    refine ⟨graph, available, built, computed, ?_⟩
    intro n listed
    refine ⟨?_, fun m parent => (wellFormed.inside parent).1⟩
    rw [Plan.groups_groupGraph built] at listed
    rw [Plan.groupGraph_eq built, KeyMap.get?_ofList_map, if_pos listed]
    exact ⟨_, rfl⟩
  sizes := fun ks known =>
    ⟨_, totalSize_eq_total known, small.total_lt ks.nodup_toList known⟩
  removals := by
    intro placed count p places run
    have within := run.within places.within_known
    have homogeneous : p.Homogeneous i :=
      run.keeps (fun _ _ _ homogeneous removes => removes.homogeneous homogeneous)
        (Plan.homogeneous_of_places covers.resolved byId places)
    refine ⟨within, ?_, fun reuser reused => Plan.total_buckets_lt small within homogeneous⟩
    intro group removal place found subject
    rcases Plan.nextRemoval?_eq_some found with ⟨other, b, isBundle, _, same, _⟩ | ⟨_, _, same, _⟩
    · cases subject.symm.trans same
      exact (List.getElem?_eq_some_iff.1 isBundle).1
    · cases subject.symm.trans same

/-- Where there is a plan, limiting has come to an end. -/
theorem Stops.of_planTarget (planned : (i.planTarget config entries).result.isOk = true) :
    i.Stops config entries := by
  intro entry placed first placing enabled
  by_contra never
  have endless := Plan.limitRequests_endless_iff.2 ⟨enabled, never⟩
  rw [planTarget_eq_limitRequests first placing, endless] at planned
  cases planned

end Index

namespace Bundler

variable {config : Config} {g : AssetGraph}

theorem build_eq_error {fault : Fault}
    (failed : (Index.ofGraph g).entriesByTarget g = .error fault) :
    (build config g).result = .error fault := by
  have planned : (planTargets config g).result = .error fault :=
    Report.result_bind_eq_error.2 (.inr ⟨(), rfl, Report.result_bind_eq_error.2 (.inl failed)⟩)
  exact Report.result_bind_eq_error.2 (.inl planned)

theorem exists_build {m : KeyMap String (List Entry)}
    (success : (Index.ofGraph g).entriesByTarget g = .ok m)
    (planned : ∀ name entries, m.get? name = some entries →
      ∃ p, ((Index.ofGraph g).planTarget config entries).result = .ok p) :
    ∃ b, (build config g).result = .ok b := by
  obtain ⟨plans, made⟩ : ∃ plans, (m.entries.mapM fun e =>
      (((Index.ofGraph g).planTarget config e.2).mapFault (Fault.inTarget e.1)).result) =
        .ok plans := by
    refine exists_mapM_ok ?_
    intro e listed
    obtain ⟨p, isPlan⟩ := planned e.1 e.2 (KeyMap.get?_eq_some_iff.2 listed)
    exact ⟨p, Report.result_mapFault.2 isPlan⟩
  exact ⟨_, build_eq_ok_iff.2 ⟨m, plans, success, made, rfl⟩⟩

end Bundler

open Bundler

/-- Take any graph with at most `2 ^ 32` assets whose sizes have 32 bits, in which different
environments have different ids, and any configuration whose manual rules have partitions. Suppose
that limiting the requests comes to an end for each target. Then a build fails exactly if the graph
has no entry, or an entry that leads to no asset, and with the failure that says so. Filling the
tables of the index succeeds, and gives the index that the build works with: all assets have keys of
32 bits and all keys have assets. On the way nothing is looked up in vain and no sum of sizes
overflows. -/
theorem build_fails_only_at_entries (config : Config) (g : AssetGraph)
    (few : g.assets.length ≤ 2 ^ 32) (small : ∀ a, .asset a ∈ g.nodes → a.size < 2 ^ 32)
    (splits : ∀ rule ∈ config.manualRules, 1 ≤ rule.split)
    (distinct : ∀ a b, .asset a ∈ g.nodes → .asset b ∈ g.nodes → a.env.id = b.env.id →
      a.env = b.env)
    (stops : ∀ byTarget name entries, (Index.ofGraph g).entriesByTarget g = .ok byTarget →
      byTarget.get? name = some entries → (Index.ofGraph g).Stops config entries) :
    ((∃ fault, (build config g).result = .error fault) ↔ g.Entryless ∨ ∃ d, g.Unresolved d) ∧
    (∀ fault, (build config g).result = .error fault →
      (g.Entryless ∧ fault = .failure .noEntryDependencies) ∨
        ∃ d, g.Unresolved d ∧ fault = .failure (.unresolvedEntry d.specifier)) ∧
    (∃ tables, Index.Tables.ofGraph g = .ok tables ∧ tables.index = Index.ofGraph g) ∧
    (Index.ofGraph g).size ≤ 2 ^ 32 ∧
    (∀ a, .asset a ∈ g.nodes → ∃ k, (Index.ofGraph g).keyOf? a.id = some k ∧
      (Index.ofGraph g).idOf k = .ok a.id) ∧
    (∀ k id, (Index.idsOfGraph g)[k]? = some id → (Index.ofGraph g).idOf k = .ok id) ∧
    ∀ byTarget name entries, (Index.ofGraph g).entriesByTarget g = .ok byTarget →
      byTarget.get? name = some entries → (Index.ofGraph g).Safe config entries := by
  have bounded := Index.small_ofGraph few small
  have covers {byTarget : KeyMap String (List Entry)} {name : String} {entries : List Entry}
      (entered : (Index.ofGraph g).entriesByTarget g = .ok byTarget)
      (found : byTarget.get? name = some entries) : (Index.ofGraph g).Covers entries :=
    ⟨Index.resolvesInside_ofGraph, Index.entry_indexed entered found⟩
  have outcome : (∃ fault, (Index.ofGraph g).entriesByTarget g = .error fault ∧
        (build config g).result = .error fault) ∨
      (¬g.Entryless ∧ ∀ d, ¬g.Unresolved d) ∧ ∃ b, (build config g).result = .ok b := by
    cases entered : (Index.ofGraph g).entriesByTarget g with
    | error fault => exact .inl ⟨fault, rfl, build_eq_error entered⟩
    | ok byTarget =>
      refine .inr ⟨Index.resolved_of_entriesByTarget entered, exists_build entered ?_⟩
      intro name entries found
      exact (covers entered found).exists_planTarget splits (Index.entries_ne_nil entered found)
        (stops byTarget name entries entered found)
  have tabled : (Index.idsOfGraph g).length ≤ 2 ^ 32 := by
    rw [← Index.length_assets_ofGraph]
    exact bounded.few
  refine ⟨?_, ?_, ⟨_, Index.Tables.ofGraph_eq tabled, Index.Tables.index_ofIndex _ _⟩, bounded.few,
    fun a listed => Index.exists_keyOf listed, fun k id found => Index.idOf_ofGraph found, ?_⟩
  · rcases outcome with ⟨fault, entered, failed⟩ | ⟨⟨some, resolved⟩, b, built⟩
    · refine ⟨fun _ => ?_, fun _ => ⟨fault, failed⟩⟩
      exact (Index.fault_of_entriesByTarget entered).imp And.left fun unresolved =>
        unresolved.imp fun _ => And.left
    · simp [built, some, resolved]
  · intro fault failed
    rcases outcome with ⟨other, entered, failedToo⟩ | ⟨_, b, built⟩
    · cases failed.symm.trans failedToo
      exact Index.fault_of_entriesByTarget entered
    · cases failed.symm.trans built
  · intro byTarget name entries entered found
    exact (covers entered found).safe (Index.entries_ne_nil entered found) bounded
      (Index.environmentsById_ofGraph distinct) config

/-- A build with manual and reused bundles, and with removals until the limit is kept. -/
theorem libraryPages_builds :
    (∃ b, (build libraryPagesConfig libraryPages).result = .ok b) ∧
      (Index.ofGraph libraryPages).Safe libraryPagesConfig libraryPagesEntries := by
  have plain : ∀ a, .asset a ∈ libraryPages.nodes → a.size < 2 ^ 32 ∧ a.env = {} := by
    have all : ∀ a ∈ libraryPages.nodes.filterMap AssetGraph.Node.asset?,
        a.size < 2 ^ 32 ∧ a.env = {} := by decide +kernel
    exact fun a listed => all a (List.mem_filterMap.2 ⟨_, listed, rfl⟩)
  have entered : (Index.ofGraph libraryPages).entriesByTarget libraryPages =
      .ok (.ofList [("default", libraryPagesEntries)]) := by decide +kernel
  have stops : ∀ byTarget name entries,
      (Index.ofGraph libraryPages).entriesByTarget libraryPages = .ok byTarget →
        byTarget.get? name = some entries →
          (Index.ofGraph libraryPages).Stops libraryPagesConfig entries := by
    intro byTarget name entries isEntered found
    cases entered.symm.trans isEntered
    have same : (name, entries) = ("default", libraryPagesEntries) :=
      List.mem_singleton.1 (KeyMap.get?_eq_some_iff.1 found)
    cases same
    exact .of_planTarget (by decide +kernel)
  obtain ⟨fails, _, _, _, _, _, safe⟩ := build_fails_only_at_entries libraryPagesConfig libraryPages
    (by decide +kernel) (fun a listed => (plain a listed).1) (by decide)
    (fun a b left right _ => (plain a left).2.trans (plain b right).2.symm) stops
  obtain ⟨some, resolved⟩ := Index.resolved_of_entriesByTarget entered
  refine ⟨?_, safe _ "default" libraryPagesEntries entered (by decide +kernel)⟩
  cases result : (build libraryPagesConfig libraryPages).result with
  | ok b => exact ⟨b, rfl⟩
  | error fault =>
    rcases fails.1 ⟨fault, result⟩ with none | ⟨d, unresolved⟩
    · exact absurd none some
    · exact absurd unresolved (resolved d)

end CodeSplit
