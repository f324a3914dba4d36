import CodeSplit.Proofs.LinkOrder
import CodeSplit.Proofs.PlanContents

/-!
No asset is lost and none is invented. A dependency that is not followed by the walk of a root leads
to another root, so that every asset that the entries lead to is reached by some root. What is
reached has a consumer, a consumer holds it once it has been placed, and limiting takes nothing away
from a root. On the other hand only what was reached is placed at all.
-/
namespace CodeSplit

open Relation (ReflTransGen)

namespace Plan

variable {p : Plan} {root x : AssetKey}

/-- The asset is in a bundle of the plan. -/
def Occurs (p : Plan) (x : AssetKey) : Prop :=
  (∃ root, p.Packages root x) ∨ (∃ b ∈ p.liveSharedBundles, x ∈ b.assets) ∨
    ∃ key b, p.manualBundles.get? key = some b ∧ x ∈ b.assets

theorem Holds.occurs (held : p.Holds root x) : p.Occurs x := by
  rcases held with packed | ⟨b, live, has, _⟩ | ⟨key, b, found, has, _⟩
  · exact .inl ⟨root, packed⟩
  · exact .inr (.inl ⟨b, live, has⟩)
  · exact .inr (.inr ⟨key, b, found, has⟩)

theorem Occurs.inside {inside : AssetKey → Prop} (occurs : p.Occurs x) (within : p.Within inside) :
    inside x := by
  rcases occurs with ⟨root, packed⟩ | ⟨b, live, has⟩ | ⟨key, b, found, has⟩
  · exact within.packages root x packed
  · exact (within.shared b (List.mem_of_mem_filter live)).1 x has
  · exact (within.manual key b found).1 x has

/-- What is reached has a consumer. -/
theorem IsPacking.exists_consumer {reach : Reach}
    {available packing : KeyMap AssetKey (KeySet AssetKey)}
    (packs : p.IsPacking reach available packing) (reached : x ∈ reach.reachedBy root) :
    ∃ m, m ∈ packing.setAt x := by
  by_cases all : ∀ k, x ∈ reach.reachedBy k → p.ReliesOn reach available k x
  · exact ⟨root, (packs x root).2 ⟨reached, .inr all⟩⟩
  · obtain ⟨k, alone⟩ := not_forall.1 all
    obtain ⟨reaches, needs⟩ := Classical.not_imp.1 alone
    exact ⟨k, (packs x k).2 ⟨reaches, .inl needs⟩⟩

end Plan

namespace Index

variable {i : Index} {config : Config} {entries : List Entry} {k x : AssetKey}

/-- Dependencies of any kind lead from an entry to the asset. -/
def Reachable (i : Index) (entries : List Entry) (x : AssetKey) : Prop :=
  ∃ entry ∈ entries, ReflTransGen i.Resolves entry.asset x

theorem mem_reachable : x ∈ i.reachable entries ↔ i.Reachable entries x := by
  have step : Walk.Follows i.successors = i.Resolves := by
    funext a b
    exact propext List.mem_filterMap
  have covered : ∀ a, i.successors a ≠ [] → a ∈ i.keys := fun _ some => mem_keys_of_filterMap some
  unfold reachable Reachable
  rw [Walk.mem_explore_iff covered, step]
  simp

theorem Reachable.of_root {root : Root} (known : (i.roots entries).get? k = some root) :
    i.Reachable entries k := by
  obtain ⟨created, _⟩ := get?_roots_eq_some_iff.1 known
  obtain ⟨c, listed, rfl⟩ := List.mem_map.1 created
  rcases List.mem_append.1 listed with listed | listed
  · obtain ⟨e, member, rfl⟩ := List.mem_map.1 listed
    exact ⟨e, member, .refl⟩
  · obtain ⟨b, member, rfl⟩ := List.mem_map.1 listed
    obtain ⟨source, link, isLink, resolved, _⟩ := mem_boundaries.1 member
    obtain ⟨e, listed, path⟩ := mem_reachable.1 source
    exact ⟨e, listed, path.tail ⟨link, isLink, resolved⟩⟩

/-- Whatever a root reaches, the entries lead to. -/
theorem Reachable.of_reachedBy (reached : x ∈ (i.reach (i.roots entries)).reachedBy k) :
    i.Reachable entries x := by
  obtain ⟨root, known, walked⟩ := mem_reachedBy.1 reached
  obtain ⟨e, listed, path⟩ := Reachable.of_root known
  exact ⟨e, listed, path.trans (ReflTransGen.mono (fun _ _ enters => enters.resolves) _ _ walked)⟩

/-- Every dependency that is resolved leads to an asset of the index. -/
def ResolvesInside (i : Index) : Prop := ∀ a b, i.Resolves a b → ∃ asset, i.asset? b = some asset

/-- What a dependency starts a bundle for is a root. -/
theorem exists_root_of_boundary (inside : i.ResolvesInside) {link : Link}
    (reachable : i.Reachable entries k) (member : link ∈ i.links k)
    (resolved : link.target = some x)
    (starts : (i.triggersOf k link.dependency x).isEmpty = false) :
    ∃ root, (i.roots entries).get? x = some root := by
  obtain ⟨asset, known⟩ := inside k x ⟨link, member, resolved⟩
  have boundary : (⟨k, x, link.dependency, i.triggersOf k link.dependency x⟩ : Boundary) ∈
      i.boundaries entries :=
    mem_boundaries.2 ⟨mem_reachable.2 reachable, link, member, resolved, rfl, rfl, starts⟩
  have created : x ∈ (i.creations entries).map Creation.asset :=
    List.mem_map.2 ⟨_, List.mem_append_right _ (List.mem_map_of_mem boundary), rfl⟩
  exact ⟨_, get?_roots_eq_some_iff.2 ⟨created, asset, known, rfl⟩⟩

theorem exists_root_of_entry {entry : Entry} (listed : entry ∈ entries) {asset : Asset}
    (known : i.asset? entry.asset = some asset) :
    ∃ root, (i.roots entries).get? entry.asset = some root := by
  have created : entry.asset ∈ (i.creations entries).map Creation.asset :=
    List.mem_map.2 ⟨_, List.mem_append_left _ (List.mem_map_of_mem listed), rfl⟩
  exact ⟨_, get?_roots_eq_some_iff.2 ⟨created, asset, known, rfl⟩⟩

/-- Whatever the entries lead to is reached by some root. -/
theorem Reachable.exists_reachedBy (inside : i.ResolvesInside)
    (known : ∀ entry ∈ entries, ∃ asset, i.asset? entry.asset = some asset)
    (reachable : i.Reachable entries x) :
    ∃ root, x ∈ (i.reach (i.roots entries)).reachedBy root := by
  have itself {k : AssetKey} (isRoot : ∃ root, (i.roots entries).get? k = some root) :
      ∃ root, k ∈ (i.reach (i.roots entries)).reachedBy root := by
    obtain ⟨root, found⟩ := isRoot
    exact ⟨k, mem_reachedBy.2 ⟨root, found, .refl⟩⟩
  obtain ⟨entry, listed, path⟩ := reachable
  induction path with
  | refl =>
    obtain ⟨asset, isAsset⟩ := known entry listed
    exact itself (exists_root_of_entry listed isAsset)
  | @tail y z path resolves ih =>
    obtain ⟨m, reached⟩ := ih
    obtain ⟨link, member, resolved⟩ := resolves
    cases starts : (i.triggersOf y link.dependency z).isEmpty with
    | false =>
      exact itself
        (exists_root_of_boundary inside ⟨entry, listed, path⟩ member resolved starts)
    | true =>
      obtain ⟨root, isRoot, walked⟩ := mem_reachedBy.1 reached
      have goesOn : i.Enters (i.roots entries) m root y z ∨ _ :=
        enter_or_reuse_of_synchronous ⟨link, member, resolved, starts⟩
      rcases goesOn with enters | ⟨_, other⟩
      · exact ⟨m, mem_reachedBy.2 ⟨root, isRoot, walked.tail enters⟩⟩
      · exact itself other

/-- Whatever is reached is held by a root when all assets have been placed. -/
theorem Places.exists_holds {placed : Plan} (places : i.Places config entries placed)
    (reached : ∃ root, x ∈ (i.reach (i.roots entries)).reachedBy root) :
    ∃ m, placed.Holds m x := by
  obtain ⟨target, walked, reach, packing, extracted, e, walks, consumed, moved, shared⟩ :=
    places.passes
  obtain ⟨rfl, rfl⟩ := walkedPlan_ok walks
  obtain ⟨root, reached⟩ := reached
  obtain ⟨_, _, _, _, packs⟩ := Plan.isPacking_of_consumers consumed
  obtain ⟨m, consumer⟩ := packs.exists_consumer reached
  exact ⟨m, (Plan.holds_of_consumer moved shared).2 x m consumer⟩

section OfGraph

variable {g : AssetGraph}

theorem resolvesInside_ofGraph : (ofGraph g).ResolvesInside := by
  rintro a b ⟨link, member, resolved⟩
  unfold links at member
  split at member
  · rename_i indexed found
    obtain ⟨id, made⟩ := indexed_of_ofGraph found
    unfold indexedOfGraph? at made
    obtain ⟨_, _, rfl⟩ := Option.map_eq_some_iff.1 made
    obtain ⟨⟨n, _⟩, _, listed⟩ := List.mem_flatMap.1 member
    obtain ⟨d, _, mapped⟩ := List.mem_filterMap.1 listed
    obtain ⟨dependency, _, rfl⟩ := Option.map_eq_some_iff.1 mapped
    obtain ⟨asset, _, place⟩ := Option.bind_eq_some_iff.1 resolved
    obtain ⟨inside, _⟩ := List.findIdx?_eq_some_iff_getElem.1 place
    have isId := List.getElem?_eq_getElem inside
    obtain ⟨other, known⟩ := Option.isSome_iff_exists.1
      (isSome_indexedOfGraph? (List.mem_of_getElem? isId) (idsOfGraph g))
    unfold asset?
    rw [indexed?_ofGraph, isId, Option.bind_some, known]
    exact ⟨_, rfl⟩
  · cases member

theorem entry_indexed {m : KeyMap String (List Entry)} (success : i.entriesByTarget g = .ok m)
    {name : String} (found : m.get? name = some entries) :
    ∀ entry ∈ entries, ∃ asset, i.asset? entry.asset = some asset := by
  intro entry listed
  obtain ⟨n, d, _, made⟩ := exists_entryOf success found listed
  unfold entryOf at made
  split at made
  · rename_i key resolved
    cases made
    obtain ⟨asset, _, place⟩ := Option.bind_eq_some_iff.1 resolved
    obtain ⟨inside, _⟩ := List.findIdx?_eq_some_iff_getElem.1 place
    unfold asset? indexed?
    rw [List.getElem?_eq_getElem inside]
    exact ⟨_, rfl⟩
  · cases made

end OfGraph

end Index

/-- Take any graph, any configuration, and the entries of one of its targets. The assets that occur
in the plan of the target, in the bundles of some root, in a live shared bundle or in a manual
bundle, are exactly those to which dependencies of any kind lead from the entries. -/
theorem occurs_iff_reachable (g : AssetGraph) (config : Config)
    (byTarget : KeyMap String (List Entry)) (name : String) (entries : List Entry) (p : Plan)
    (entered : (Index.ofGraph g).entriesByTarget g = .ok byTarget)
    (found : byTarget.get? name = some entries)
    (success : ((Index.ofGraph g).planTarget config entries).result = .ok p) (x : AssetKey) :
    ((∃ root fileType, x ∈ p.bucket root fileType) ∨ (∃ b ∈ p.liveSharedBundles, x ∈ b.assets) ∨
        ∃ key b, p.manualBundles.get? key = some b ∧ x ∈ b.assets) ↔
      ∃ entry ∈ entries, ReflTransGen (Index.ofGraph g).Resolves entry.asset x := by
  obtain ⟨placed, places, limited⟩ := Index.places_of_planTarget success
  obtain ⟨count, run⟩ := Plan.removesIn_of_limitRequests limited
  constructor
  · intro occurs
    have within := places.within (fun _ _ known => Index.Reachable.of_root known)
      fun _ _ _ ⟨_, reached⟩ => Index.Reachable.of_reachedBy reached
    exact Plan.Occurs.inside occurs (run.within within)
  · intro reachable
    have reached := Index.Reachable.exists_reachedBy Index.resolvesInside_ofGraph
      (Index.entry_indexed entered found) reachable
    obtain ⟨m, held⟩ := places.exists_holds reached
    have kept : p.Holds m x :=
      run.keeps (motive := fun p => p.Holds m x) (fun _ _ _ held removes => removes.holds held) held
    exact kept.occurs

/-- Three pages behind an entry. The first reuses the second; a library is shared by the second and
the third, until the limit dissolves it, and the third has a part that goes to a manual bundle.
Nothing leads to the orphan. -/
def libraryPages : AssetGraph :=
  let dependency (id : String) (priority : Priority) : AssetGraph.Node :=
    .dependency { id, specifier := id, priority }
  { nodes := [.root, .dependency { id := "entry", specifier := "index", isEntry := true },
      .asset { id := "index" }, dependency "load a" .lazy, .asset { id := "a" },
      dependency "load b" .lazy, .asset { id := "b", stats := { size := 100 } },
      dependency "load c" .lazy, .asset { id := "c" }, dependency "a to b" .sync,
      dependency "b to lib" .sync, dependency "c to lib" .sync,
      .asset { id := "lib", stats := { size := 10 } }, .asset { id := "orphan" },
      dependency "c to vendor" .sync, .asset { id := "vendor", filePath := ⟨"/vendor"⟩ }]
    edges := [(0, 1), (1, 2), (2, 3), (3, 4), (2, 5), (5, 6), (2, 7), (7, 8), (4, 9), (9, 6),
      (6, 10), (10, 12), (8, 11), (11, 12), (8, 14), (14, 15)] }

def libraryPagesEntries : List Entry :=
  [⟨{ id := "entry", specifier := "index", isEntry := true }, 3, {}⟩]

def libraryPagesConfig : Config where
  minBundleSize := 1
  maxParallelRequests := 1
  manualRules := [{ name := "vendor", assets := ["/vendor"] }]

/-- The library `4` and the part `6` are in the plan, and the orphan `5` is not. -/
theorem libraryPages_conserved :
    ∃ p, ((Index.ofGraph libraryPages).planTarget libraryPagesConfig
        libraryPagesEntries).result = .ok p ∧ p.Occurs 4 ∧ p.Occurs 6 ∧ ¬p.Occurs 5 := by
  have entered : (Index.ofGraph libraryPages).entriesByTarget libraryPages =
      .ok (.ofList [("default", libraryPagesEntries)]) := by decide +kernel
  have returns : ((Index.ofGraph libraryPages).planTarget libraryPagesConfig
      libraryPagesEntries).result.isOk = true := by decide +kernel
  obtain ⟨p, success⟩ : ∃ p, ((Index.ofGraph libraryPages).planTarget libraryPagesConfig
      libraryPagesEntries).result = .ok p := by
    cases result : ((Index.ofGraph libraryPages).planTarget libraryPagesConfig
        libraryPagesEntries).result with
    | ok p => exact ⟨p, rfl⟩
    | error fault =>
      rw [result] at returns
      cases returns
  have occurs (x : AssetKey) :
      p.Occurs x ↔ x ∈ (Index.ofGraph libraryPages).reachable libraryPagesEntries :=
    (occurs_iff_reachable libraryPages libraryPagesConfig _ "default" libraryPagesEntries p entered
      (by decide +kernel) success x).trans Index.mem_reachable.symm
  refine ⟨p, success, ?_⟩
  rw [occurs, occurs, occurs]
  decide +kernel

end CodeSplit
