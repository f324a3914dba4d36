import CodeSplit.Proofs.PassProgress
import Mathlib.Order.Bounds.Defs

/-!
What the walks from the roots find, as sets. A walk visits its stack in an order of its own and may
put an asset on it many times. What it has reached in the end is the least set that goes on from the
root, along every dependency for a single file, and otherwise along those that start no bundle and
do not lead to another root that is loaded instead. What it has crossed and reused are the other
dependencies of that set.
-/
namespace CodeSplit

open Relation (ReflTransGen)

namespace Index

variable {g : AssetGraph} {i : Index} {roots : KeyMap AssetKey Root} {key : AssetKey} {root : Root}

/-- The id of a dependency names it among those of an asset. -/
structure NamesLinks (i : Index) : Prop where
  distinct : ∀ k, (i.links k).Nodup
  apart : ∀ k, ∀ link ∈ i.links k, ∀ other ∈ i.links k,
    link.dependency.id = other.dependency.id → link = other

theorem namesLinks_ofGraph (built : g.Built) : (ofGraph g).NamesLinks := by
  have distinct := built.distinctKeys
  constructor
  · intro k
    unfold links
    rw [indexed?_ofGraph]
    cases found : (idsOfGraph g)[k]? with
    | none => exact List.nodup_nil
    | some id =>
      obtain ⟨a, listed, rfl⟩ := mem_idsOfGraph.1 (List.mem_of_getElem? found)
      rw [Option.bind_some, indexedOfGraph?_eq distinct listed]
      refine (built.nodup_leadsTo _).filterMap ?_
      intro node other link left right
      obtain ⟨d, isDependency, rfl⟩ := Option.map_eq_some_iff.1 left
      obtain ⟨e, isDependencyToo, same⟩ := Option.map_eq_some_iff.1 right
      cases congrArg Link.dependency same
      rw [AssetGraph.Node.dependency?_eq_some_iff] at isDependency isDependencyToo
      rw [isDependency, isDependencyToo]
  · intro k link member other memberToo same
    obtain ⟨_, _, _, isLink⟩ := link_ofGraph distinct member
    obtain ⟨_, _, _, isLinkToo⟩ := link_ofGraph distinct memberToo
    have sameDependency := distinct.dependency_eq (dependency_mem_nodes member)
      (dependency_mem_nodes memberToo) same
    rw [isLink, isLinkToo, sameDependency]

/-- The walk of a root goes on to the second asset by a dependency of the first: by any for a single
file, and otherwise by one that starts no bundle, unless it leads to another root that can be
loaded instead. -/
def GoesOn (i : Index) (roots : KeyMap AssetKey Root) (key : AssetKey) (root : Root)
    (a b : AssetKey) : Prop :=
  ∃ link ∈ i.links a, link.target = some b ∧
    (root.isSingleFile = true ∨ ((i.triggersOf a link.dependency b).isEmpty = true ∧
      (b = key ∨ ¬ReusableRoot roots b)))

/-- Among what a root reaches, an asset has a dependency on another asset than the root. The output
of the root is not a single file. -/
structure Meets (i : Index) (roots : KeyMap AssetKey Root) (reach : Reach) (r a : AssetKey)
    (link : Link) (t : AssetKey) : Prop where
  fromRoot : ∃ root, roots.get? r = some root ∧ root.isSingleFile = false
  reached : a ∈ reach.reachedBy r
  declared : link ∈ i.links a
  resolved : link.target = some t
  other : t ≠ r

/-- The edge for a dependency that a root meets. -/
def edgeOf (i : Index) (r a : AssetKey) (link : Link) (t : AssetKey) : BundleEdge :=
  ⟨r, t, a, link.dependency.id, i.triggersOf a link.dependency t⟩

section Reached

theorem enters_iff_goesOn {a b : AssetKey} :
    i.Enters roots key root a b ↔ i.GoesOn roots key root a b := by
  unfold Enters GoesOn
  simp only [mem_stepsOf, step_eq_enter_iff]
  constructor
  · rintro ⟨link, member, _, resolved, rfl, goesOn⟩
    exact ⟨link, member, resolved, goesOn⟩
  · rintro ⟨link, member, resolved, goesOn⟩
    exact ⟨link, member, b, resolved, rfl, goesOn⟩

/-- A walk has reached what cannot be left out, and nothing else. -/
theorem isLeast_reachedBy (found : roots.get? key = some root) :
    IsLeast {s : Set AssetKey | key ∈ s ∧ ∀ a ∈ s, ∀ b, i.GoesOn roots key root a b → b ∈ s}
      {x | x ∈ (i.reach roots).reachedBy key} := by
  have reached (x : AssetKey) : x ∈ (i.reach roots).reachedBy key ↔
      ReflTransGen (i.Enters roots key root) key x := by
    rw [mem_reachedBy, found]
    simp
  refine ⟨⟨(reached key).2 .refl, ?_⟩, ?_⟩
  · intro a walked b goesOn
    exact (reached b).2 (((reached a).1 walked).tail (enters_iff_goesOn.2 goesOn))
  · rintro s ⟨start, closed⟩ x walked
    induction (reached x).1 walked with
    | refl => exact start
    | @tail a b path enters ih =>
      exact closed a (ih ((reached a).2 path)) b (enters_iff_goesOn.1 enters)

end Reached

section Edges

variable {r a t : AssetKey} {link : Link} {e : BundleEdge}

theorem meets_iff : i.Meets roots (i.reach roots) r a link t ↔
    ∃ root, roots.get? r = some root ∧ root.isSingleFile = false ∧
      ReflTransGen (i.Enters roots r root) r a ∧ link ∈ i.links a ∧ link.target = some t ∧
      t ≠ r := by
  constructor
  · rintro ⟨⟨root, found, single⟩, reached, member, resolved, other⟩
    obtain ⟨_, foundToo, walked⟩ := mem_reachedBy.1 reached
    cases found.symm.trans foundToo
    exact ⟨root, found, single, walked, member, resolved, other⟩
  · rintro ⟨root, found, single, walked, member, resolved, other⟩
    exact ⟨⟨root, found, single⟩, mem_reachedBy.2 ⟨root, found, walked⟩, member, resolved, other⟩

theorem mem_reusedRoots_iff_meets :
    (r, t) ∈ i.reusedRoots roots ↔ ∃ a link, i.Meets roots (i.reach roots) r a link t ∧
      (i.triggersOf a link.dependency t).isEmpty = true ∧ ReusableRoot roots t := by
  simp only [mem_reusedRoots, mem_stepsOf, step_eq_reuse_iff, meets_iff]
  constructor
  · rintro ⟨root, found, a, walked, link, member, _, resolved, rfl, single, none, other, reusable⟩
    exact ⟨a, link, ⟨root, found, single, walked, member, resolved, other⟩, none, reusable⟩
  · rintro ⟨a, link, ⟨root, found, single, walked, member, resolved, other⟩, none, reusable⟩
    exact ⟨root, found, a, walked, link, member, t, resolved, rfl, single, none, other, reusable⟩

theorem mem_bundleEdges_iff_meets :
    e ∈ i.bundleEdges roots ↔ ∃ r a link t, i.Meets roots (i.reach roots) r a link t ∧
      (i.triggersOf a link.dependency t).isEmpty = false ∧ e = i.edgeOf r a link t := by
  simp only [mem_bundleEdges, mem_stepsOf, step_eq_cross_iff, meets_iff]
  constructor
  · rintro ⟨r, root, found, a, walked, link, member, t, resolved, single, starts, other, same⟩
    exact ⟨r, a, link, t, ⟨root, found, single, walked, member, resolved, other⟩, starts, same⟩
  · rintro ⟨r, a, link, t, ⟨root, found, single, walked, member, resolved, other⟩, starts, same⟩
    exact ⟨r, root, found, a, walked, link, member, t, resolved, single, starts, other, same⟩

/-- An asset gives no edge twice, since the ids of its dependencies differ. -/
theorem NamesLinks.nodup_crossed (names : i.NamesLinks) (roots : KeyMap AssetKey Root)
    (key : AssetKey) (root : Root) (a : AssetKey) :
    ((i.stepsOf roots key root a).filterMap Step.crossed?).Nodup := by
  have crossing {link : Link} {e : BundleEdge} (crosses : e ∈ (link.target.map fun target =>
      i.step roots key root a link.dependency target).bind Step.crossed?) :
      e.dependencyId = link.dependency.id := by
    obtain ⟨step, isStep, crosses⟩ := Option.bind_eq_some_iff.1 crosses
    obtain ⟨target, _, isStep⟩ := Option.map_eq_some_iff.1 isStep
    rw [Step.crossed?_eq_some_iff, ← isStep] at crosses
    obtain ⟨_, _, _, rfl⟩ := step_eq_cross_iff.1 crosses
    rfl
  unfold stepsOf List.Nodup
  rw [List.filterMap_filterMap, List.pairwise_filterMap]
  refine (names.distinct a).imp_of_mem ?_
  intro link other listed listedToo differ e crosses f crossesToo same
  apply differ
  apply names.apart a link listed other listedToo
  rw [← crossing crosses, ← crossing crossesToo, same]

/-- The edges of one walk. An edge names the asset that declares its dependency, and no asset is
visited twice. -/
theorem NamesLinks.nodup_walk_crossed (names : i.NamesLinks) (roots : KeyMap AssetKey Root)
    (key : AssetKey) (root : Root) :
    ((i.walkSteps roots key root).filterMap Step.crossed?).Nodup := by
  unfold walkSteps
  rw [List.filterMap_flatMap, List.nodup_flatMap]
  refine ⟨fun a _ => names.nodup_crossed roots key root a, ?_⟩
  refine (Walk.nodup_explore _ _ _).imp ?_
  intro a b differ e left right
  simp only [List.mem_filterMap, Step.crossed?_eq_some_iff, exists_eq_right] at left right
  obtain ⟨_, declared, _⟩ := cross_cases left
  obtain ⟨_, declaredToo, _⟩ := cross_cases right
  exact differ (declared.symm.trans declaredToo)

/-- The edges of all walks. An edge names its root, and every root is walked once. -/
theorem NamesLinks.nodup_found (names : i.NamesLinks) (roots : KeyMap AssetKey Root) :
    (roots.entries.flatMap fun entry =>
      (i.walkSteps roots entry.1 entry.2).filterMap Step.crossed?).Nodup := by
  rw [List.nodup_flatMap]
  refine ⟨fun entry _ => names.nodup_walk_crossed roots entry.1 entry.2, ?_⟩
  refine (List.pairwise_map.1 roots.nodup_keys).imp ?_
  intro entry other differ e left right
  simp only [List.mem_filterMap, walkSteps, List.mem_flatMap, Step.crossed?_eq_some_iff,
    exists_eq_right] at left right
  obtain ⟨_, _, left⟩ := left
  obtain ⟨_, _, right⟩ := right
  obtain ⟨source, _⟩ := cross_cases left
  obtain ⟨sourceToo, _⟩ := cross_cases right
  exact differ (source.symm.trans sourceToo)

theorem NamesLinks.nodup_bundleEdges (names : i.NamesLinks) (roots : KeyMap AssetKey Root) :
    (i.bundleEdges roots).Nodup ∧ InOrder
      (fun e : BundleEdge => (e.source, e.target, e.dependencyId)) (i.bundleEdges roots) := by
  have distinct := (perm_arrange (fun a b : BundleEdge => KeyOrder.before
    (a.source, a.target, a.dependencyId) (b.source, b.target, b.dependencyId)) _).nodup_iff.2
      (names.nodup_found roots)
  have same := dropRepeated_of_nodup distinct
  unfold bundleEdges
  exact same.symm ▸ ⟨distinct, inOrder_arrange _⟩

/-- The edge of a dependency is the only one for its root, asset and id. -/
theorem NamesLinks.filter_bundleEdges (names : i.NamesLinks)
    (meets : i.Meets roots (i.reach roots) r a link t)
    (starts : (i.triggersOf a link.dependency t).isEmpty = false) :
    (i.bundleEdges roots).filter (fun e =>
      e.source = r ∧ e.declaredBy = a ∧ e.dependencyId = link.dependency.id) =
      [i.edgeOf r a link t] := by
  have distinct := (names.nodup_bundleEdges roots).1
  rw [← List.perm_singleton,
    List.perm_ext_iff_of_nodup (distinct.filter _) (List.nodup_singleton _)]
  intro e
  simp only [List.mem_filter, decide_eq_true_eq, List.mem_singleton]
  constructor
  · rintro ⟨listed, source, declared, sameId⟩
    obtain ⟨r', a', link', t', meetsToo, _, rfl⟩ := mem_bundleEdges_iff_meets.1 listed
    obtain rfl : r' = r := source
    obtain rfl : a' = a := declared
    obtain rfl := names.apart a' link' meetsToo.declared link meets.declared sameId
    cases meets.resolved.symm.trans meetsToo.resolved
    rfl
  · rintro rfl
    exact ⟨mem_bundleEdges_iff_meets.2 ⟨r, a, link, t, meets, starts, rfl⟩, rfl, rfl, rfl⟩

end Edges

end Index

/-- The walks from any roots of the index of a graph. What a root reaches is the least set that has
its asset and goes on along the dependencies that the root keeps to itself, and the roots that are
listed for an asset are those that reach it. Every dependency that starts a bundle of another asset,
in what a root reaches, has exactly one edge. There are no other edges, and they are in order. A
root reuses exactly the reusable roots that what it reaches depends on directly. -/
theorem walks_are_exact (g : AssetGraph) (built : g.Built) (roots : KeyMap AssetKey Root) :
    let i := Index.ofGraph g
    ∃ walks, (i.walkRoots roots).result = .ok walks ∧
      (∀ r root, roots.get? r = some root →
        IsLeast {s : Set AssetKey | r ∈ s ∧ ∀ a ∈ s, ∀ b, i.GoesOn roots r root a b → b ∈ s}
          {x | x ∈ walks.reach.reachedBy r}) ∧
      (∀ r x, x ∈ walks.reach.reachedBy r → ∃ root, roots.get? r = some root) ∧
      (∀ r x, r ∈ walks.reach.rootsReaching x ↔ x ∈ walks.reach.reachedBy r) ∧
      (∀ r a link t, i.Meets roots walks.reach r a link t →
        (i.triggersOf a link.dependency t).isEmpty = false →
        walks.edges.filter (fun e =>
          e.source = r ∧ e.declaredBy = a ∧ e.dependencyId = link.dependency.id) =
          [i.edgeOf r a link t]) ∧
      (∀ e ∈ walks.edges, ∃ r a link t, i.Meets roots walks.reach r a link t ∧
        (i.triggersOf a link.dependency t).isEmpty = false ∧ e = i.edgeOf r a link t) ∧
      InOrder (fun e : BundleEdge => (e.source, e.target, e.dependencyId)) walks.edges ∧
      ∀ r t, (r, t) ∈ walks.reused ↔ ∃ a link, i.Meets roots walks.reach r a link t ∧
        (i.triggersOf a link.dependency t).isEmpty = true ∧ Index.ReusableRoot roots t := by
  have names := Index.namesLinks_ofGraph built
  refine ⟨_, Index.walkRoots_ok Index.resolvesInside_ofGraph roots, ?_, ?_, ?_, ?_, ?_, ?_, ?_⟩
  · intro r root found
    exact Index.isLeast_reachedBy found
  · intro r x reached
    obtain ⟨root, found, _⟩ := Index.mem_reachedBy.1 reached
    exact ⟨root, found⟩
  · intro r x
    exact Reach.mem_rootsReaching
  · intro r a link t meets starts
    exact names.filter_bundleEdges meets starts
  · intro e listed
    exact Index.mem_bundleEdges_iff_meets.1 listed
  · exact (names.nodup_bundleEdges roots).2
  · intro r t
    exact Index.mem_reusedRoots_iff_meets

/-- An application and its library, which depend on each other. Both depend on a page, which the
application loads later, and the page depends on the library. -/
def appWithLibrary : AssetGraph :=
  let app := (AssetGraph.empty.addAsset { id := "app" }).1
  let assets := ((app.addAsset { id := "lib" }).1.addAsset { id := "page" }).1
  let loads := ((assets.addDependency
    { id := "app to page", specifier := "page", priority := .lazy }).1.link 1 4).link 4 3
  let uses := ((loads.addDependency { id := "app to lib", specifier := "lib" }).1.link 1 5).link 5 2
  let back := ((uses.addDependency { id := "lib to app", specifier := "app" }).1.link 2 6).link 6 1
  let shows :=
    ((back.addDependency { id := "lib to page", specifier := "page" }).1.link 2 7).link 7 3
  ((shows.addDependency { id := "page to lib", specifier := "lib" }).1.link 3 8).link 8 2

def appWithLibraryRoots : KeyMap AssetKey Root :=
  KeyMap.ofList [(0, { assetId := "app", triggers := { entry := true } }),
    (2, { assetId := "page", triggers := { lazy := true } })]

/-- The application reaches its library and not the page, which it loads and reuses. -/
theorem appWithLibrary_walked :
    ∃ walks, ((Index.ofGraph appWithLibrary).walkRoots appWithLibraryRoots).result = .ok walks ∧
      1 ∈ walks.reach.reachedBy 0 ∧ 2 ∉ walks.reach.reachedBy 0 ∧
      0 ∈ walks.reach.rootsReaching 1 ∧
      walks.edges.filter (fun e => e.source = 0 ∧ e.declaredBy = 0 ∧
        e.dependencyId = "app to page") = [⟨0, 2, 0, "app to page", { lazy := true }⟩] ∧
      (0, 2) ∈ walks.reused := by
  have built : appWithLibrary.Built := by
    refine .link (.link (.addDependency _ (.link (.link (.addDependency _ (.link (.link
      (.addDependency _ (.link (.link (.addDependency _ (.link (.link (.addDependency _ (.addAsset _
        (.addAsset _ (.addAsset _ .empty)))) ?_ ?_) ?_ ?_)) ?_ ?_) ?_ ?_)) ?_ ?_) ?_ ?_)) ?_ ?_)
          ?_ ?_)) ?_ ?_) ?_ ?_
    all_goals decide
  have app : (Index.ofGraph appWithLibrary).links 0 =
      [⟨{ id := "app to page", specifier := "page", priority := .lazy }, some 2⟩,
        ⟨{ id := "app to lib", specifier := "lib" }, some 1⟩] := by decide +kernel
  have lib : (Index.ofGraph appWithLibrary).links 1 =
      [⟨{ id := "lib to app", specifier := "app" }, some 0⟩,
        ⟨{ id := "lib to page", specifier := "page" }, some 2⟩] := by decide +kernel
  have lazily : (Index.ofGraph appWithLibrary).triggersOf 0
      { id := "app to page", specifier := "page", priority := .lazy } 2 = { lazy := true } := by
    decide +kernel
  have pageReused : Index.ReusableRoot appWithLibraryRoots 2 := ⟨_, rfl, rfl⟩
  have libCopied : ¬Index.ReusableRoot appWithLibraryRoots 1 := by
    rintro ⟨_, found, _⟩
    cases found
  obtain ⟨walks, success, least, _, transposed, once, _, _, reused⟩ :=
    walks_are_exact appWithLibrary built appWithLibraryRoots
  obtain ⟨⟨start, closed⟩, smallest⟩ := least 0 _ rfl
  have reached : 1 ∈ walks.reach.reachedBy 0 :=
    closed 0 start 1 ⟨_, app ▸ List.mem_cons_of_mem _ List.mem_cons_self, rfl,
      .inr ⟨by decide +kernel, .inr libCopied⟩⟩
  have outside : 2 ∉ walks.reach.reachedBy 0 := by
    intro inside
    refine smallest (a := {x | x ≠ 2}) ⟨by decide, ?_⟩ inside rfl
    rintro a _ b ⟨link, _, _, single | ⟨_, own | notRoot⟩⟩ rfl
    · cases single
    · cases own
    · exact notRoot pageReused
  have loads := once 0 0 _ 2 ⟨⟨_, rfl, rfl⟩, start, app ▸ List.mem_cons_self, rfl, by decide⟩
    (lazily ▸ rfl)
  rw [Index.edgeOf, lazily] at loads
  refine ⟨walks, success, reached, outside, (transposed 0 1).2 reached, loads, ?_⟩
  exact (reused 0 2).2 ⟨1, _, ⟨⟨_, rfl, rfl⟩, reached,
    lib ▸ List.mem_cons_of_mem _ List.mem_cons_self, rfl, by decide⟩, by decide +kernel, pageReused⟩

end CodeSplit
