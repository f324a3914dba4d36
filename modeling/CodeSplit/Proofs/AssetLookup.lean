import CodeSplit.Proofs.OutputBundles
import CodeSplit.Proofs.Utf8

/-!
Which bundles hold an asset. The ids of a bundle are searched by halving, which finds what is there
as long as the ids ascend. Nothing sorts them for that: assets are numbered in the order of their
ids, every set of numbers is kept in order, and merged bundles keep the ids of the first one.
-/
namespace CodeSplit

open BundleGraph
open Digest (utf8)

/-- Every text comes before the texts behind it. -/
def Ascends (texts : List String) : Prop := texts.Pairwise fun s t => KeyOrder.before s t = true

/-- In ascending texts, the order of two of them is the order of their places. -/
theorem Ascends.before_iff {texts : List String} (ascends : Ascends texts) {m n : Nat}
    {s t : String} (first : texts[m]? = some s) (second : texts[n]? = some t) :
    KeyOrder.before s t = true ↔ m < n := by
  have ordered {m n : Nat} {s t : String} (first : texts[m]? = some s)
      (second : texts[n]? = some t) (less : m < n) : KeyOrder.before s t = true := by
    obtain ⟨inside, rfl⟩ := List.getElem?_eq_some_iff.1 first
    obtain ⟨insideToo, rfl⟩ := List.getElem?_eq_some_iff.1 second
    exact List.pairwise_iff_getElem.1 ascends m n inside insideToo less
  constructor
  · intro earlier
    by_contra notLess
    rcases Nat.lt_or_eq_of_le (Nat.le_of_not_lt notLess) with less | rfl
    · rw [KeyOrder.asymm (ordered second first less)] at earlier
      cases earlier
    · cases first.symm.trans second
      rw [KeyOrder.irrefl] at earlier
      cases earlier
  · exact ordered first second

/-- Ascending texts ascend by their bytes. -/
theorem Ascends.bytes {texts : List String} (ascends : Ascends texts) :
    (texts.map utf8).Pairwise fun s t => KeyOrder.before s t = true := by
  rw [List.pairwise_map]
  exact ascends.imp fun earlier => (Digest.before_utf8 _ _).trans earlier

namespace BundleGraph

variable {ids : List String} {id : String}

/-- Halving keeps the place of an id in the part that is left, and ends there. -/
theorem bisect_eq (ascends : Ascends ids) {k : Nat} (found : ids[k]? = some id)
    {fuel base size : Nat} (low : base ≤ k) (high : k < base + size)
    (fits : base + size ≤ ids.length) (enough : size ≤ fuel) :
    bisect ids id fuel base size = k := by
  induction fuel generalizing base size with
  | zero => omega
  | succ fuel ih =>
    rw [bisect]
    by_cases single : size ≤ 1
    · rw [if_pos single]
      omega
    · have inside : base + size / 2 < ids.length := by omega
      have middle := List.getElem?_eq_getElem inside
      have after := ascends.before_iff found middle
      rw [if_neg single]
      simp only [middle, Option.any_some]
      by_cases left : k < base + size / 2
      · rw [if_pos (after.2 left)]
        exact ih (by omega) (by omega) (by omega) (by omega)
      · rw [if_neg (mt after.1 left)]
        exact ih (by omega) (by omega) (by omega) (by omega)

theorem holdsAsset_iff {b : Bundle} (ascends : Ascends b.assetIds) :
    holdsAsset b id = true ↔ id ∈ b.assetIds := by
  unfold holdsAsset
  rw [decide_eq_true_eq]
  constructor
  · exact List.mem_of_getElem?
  · intro member
    obtain ⟨k, found⟩ := List.mem_iff_getElem?.1 member
    have inside := (List.getElem?_eq_some_iff.1 found).1
    rw [bisect_eq ascends found (by omega) (by omega) (by omega) (by omega)]
    exact found

end BundleGraph

namespace Index

variable {g : AssetGraph}

theorem ascends_idsOfGraph (g : AssetGraph) : Ascends (idsOfGraph g) :=
  (KeySet.ofList _).ascending

/-- The ids of a set of assets ascend, since the keys do and are places of ids. -/
theorem ascends_idsOf {assets : KeySet AssetKey} {ids : List String}
    (named : (ofGraph g).idsOf assets = .ok ids) : Ascends ids := by
  refine pairwise_of_mapM named assets.ascending ?_
  intro x y s t earlier isFirst isSecond
  exact ((ascends_idsOfGraph g).before_iff (getElem?_idsOfGraph isFirst)
    (getElem?_idsOfGraph isSecond)).2 (of_decide_eq_true earlier)

end Index

namespace Plan

/-- Every bundle to write holds a set of assets. -/
theorem exists_holds_of_planned {p : Plan} {i : Index} {config : Config} {origin : BundleOrigin}
    {b : Bundle} (listed : (origin, .ok b) ∈ p.plannedBundles i config) :
    ∃ fileType assets, b.Holds i fileType assets := by
  cases origin with
  | bucket root fileType =>
    obtain ⟨_, _, _, _, _, made⟩ := mem_plannedBundles_bucket.1 listed
    exact ⟨_, _, (bucketBundle_ok made.symm).2.1⟩
  | loaded fileType consumers =>
    rcases mem_plannedBundles_loaded.1 listed with ⟨_, _, _, _, made⟩ | ⟨_, _, _, _, _, made⟩
    · exact ⟨_, _, (sharedBundle_ok made.symm).2.1⟩
    · exact ⟨_, _, (manualBundle_ok made.symm).2.1⟩

end Plan

/-- The ids of every bundle ascend. -/
theorem Bundler.ascends_assetIds {config : Config} {g : AssetGraph}
    (success : (bundle config g .empty).2.result = .ok ()) {b : Bundle}
    (isBundle : b ∈ (bundle config g .empty).1.bundles) : Ascends b.assetIds := by
  obtain ⟨build, built, _⟩ := bundle_ok_iff.1 success
  obtain ⟨first, isFirst, contents, _⟩ := exists_first success built isBundle
  obtain ⟨_, p, _, origin, planned⟩ := firstBundle?_eq_some isFirst
  rw [(plans_of_build built).1] at planned
  obtain ⟨_, _, holds⟩ := Plan.exists_holds_of_planned planned
  rw [contents.assetIds]
  exact Index.ascends_idsOf holds.2

/-- Where bundling into an empty graph succeeds, the ids of the assets of each bundle ascend as byte
sequences, so that none is there twice, and looking up any id gives exactly the bundles that have it
among theirs. -/
theorem asset_lookup_agrees (config : Config) (g : AssetGraph)
    (success : (Bundler.bundle config g .empty).2.result = .ok ()) :
    let output := (Bundler.bundle config g .empty).1
    (∀ b ∈ output.bundles,
      (b.assetIds.map utf8).Pairwise fun s t => KeyOrder.before s t = true) ∧
      ∀ id, output.bundlesContaining id =
        output.bundles.filter fun b => decide (id ∈ b.assetIds) := by
  constructor
  · intro b isBundle
    exact (Bundler.ascends_assetIds success isBundle).bytes
  · intro id
    apply List.filter_congr
    intro b isBundle
    rw [Bool.eq_iff_iff, holdsAsset_iff (Bundler.ascends_assetIds success isBundle),
      decide_eq_true_eq]

/-- An entry that depends on three files. Two of the ids are outside of ASCII, and their bytes put
them in the order of their code points, other than UTF-16 does. -/
def lettersAndClef : AssetGraph :=
  { nodes := [.root, .dependency { id := "entry", specifier := "z", isEntry := true },
      .asset { id := "z" }, .dependency { id := "z to clef", specifier := "clef" },
      .asset { id := "𝄞" }, .dependency { id := "z to wide", specifier := "wide" },
      .asset { id := "ｚ" }, .dependency { id := "z to a", specifier := "a" }, .asset { id := "a" }]
    edges := [(0, 1), (1, 2), (2, 3), (3, 4), (2, 5), (5, 6), (2, 7), (7, 8)] }

/-- All four files are in one bundle, which the id of each of them leads to. -/
theorem lettersAndClef_found :
    (Bundler.bundle {} lettersAndClef .empty).2.result = .ok () ∧
      (Bundler.bundle {} lettersAndClef .empty).1.bundles.map Bundle.assetIds =
        [["a", "z", "ｚ", "𝄞"]] ∧
      ∀ b ∈ (Bundler.bundle {} lettersAndClef .empty).1.bundles, ∀ id ∈ ["a", "z", "ｚ", "𝄞"],
        b ∈ (Bundler.bundle {} lettersAndClef .empty).1.bundlesContaining id := by
  have success : (Bundler.bundle {} lettersAndClef .empty).2.result = .ok () := by decide +kernel
  have ids : (Bundler.bundle {} lettersAndClef .empty).1.bundles.map Bundle.assetIds =
      [["a", "z", "ｚ", "𝄞"]] := by decide +kernel
  obtain ⟨_, finds⟩ := asset_lookup_agrees {} lettersAndClef success
  refine ⟨success, ids, ?_⟩
  intro b isBundle id listed
  have held := List.mem_map_of_mem (f := Bundle.assetIds) isBundle
  rw [ids, List.mem_singleton] at held
  rw [finds, List.mem_filter, held]
  exact ⟨isBundle, decide_eq_true listed⟩

end CodeSplit
