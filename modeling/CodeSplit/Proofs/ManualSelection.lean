import CodeSplit.Proofs.ManualExtraction
import CodeSplit.Proofs.PassProgress

/-!
Which assets go to manual bundles, said without the order in which rules look at assets. A rule
matches by path, type and the file that it starts from. The first rule that matches an asset decides
its bundle, all roots that let the asset go load this bundle from then on, and the other roots keep
their copies.
-/
namespace CodeSplit

open Relation (ReflTransGen)

namespace Index

variable {i : Index} {projectRoot root : Path} {x : AssetKey}

/-- A synchronous dependency of the first asset resolved to the second. -/
def DependsAtOnce (i : Index) (a b : AssetKey) : Prop :=
  ∃ link ∈ i.links a, link.dependency.priority = .sync ∧ link.target = some b

/-- The asset is the one of a file, which is named from the root of the file system. -/
def IsFile (i : Index) (projectRoot file : Path) (k : AssetKey) : Prop :=
  ∃ asset, i.asset? k = some asset ∧ (projectRoot.resolveFrom asset.filePath).same file = true

theorem IsFile.mem_keys (isFile : i.IsFile projectRoot root x) : x ∈ i.keys := by
  obtain ⟨asset, known, _⟩ := isFile
  obtain ⟨indexed, found, _⟩ := Option.map_eq_some_iff.1 known
  exact List.mem_range.2 (List.getElem?_eq_some_iff.1 found).1

theorem mem_synchronousSubgraph : x ∈ i.synchronousSubgraph projectRoot root ↔
    ∃ start, i.IsFile projectRoot root start ∧ ReflTransGen i.DependsAtOnce start x := by
  have step : Walk.Follows i.synchronousSuccessors = i.DependsAtOnce := by
    funext a b
    simp only [Walk.Follows, synchronousSuccessors, DependsAtOnce, List.mem_filterMap,
      Option.ite_none_right_eq_some]
  have covered : ∀ a, i.synchronousSuccessors a ≠ [] → a ∈ i.keys :=
    fun _ some => mem_keys_of_filterMap some
  have starts (k : AssetKey) : (k ∈ i.keys.filter fun k => (i.asset? k).any fun a =>
      (projectRoot.resolveFrom a.filePath).same root) ↔ i.IsFile projectRoot root k := by
    rw [List.mem_filter, Option.any_eq_true]
    constructor
    · exact fun listed => listed.2
    · exact fun isFile => ⟨isFile.mem_keys, isFile⟩
  rw [synchronousSubgraph, KeySet.mem_ofList, Walk.mem_explore_iff covered, step]
  simp only [starts]

end Index

namespace ManualRule

/-- The rule matches an asset: one of its globs the path, its types the type if it names any, and
synchronous dependencies lead to the asset from the file that the rule starts from, if it has one.
-/
structure Matches (rule : ManualRule) (i : Index) (projectRoot : Path) (x : AssetKey)
    (asset : Asset) : Prop where
  path : ∃ glob ∈ rule.assets,
    Glob.isMatch glob (projectRoot.resolveFrom asset.filePath).text = true
  type : ∀ types, rule.types = some types → asset.fileType ∈ types
  inScope : ∀ root, rule.root = some root →
    ∃ start, i.IsFile projectRoot root start ∧ ReflTransGen i.DependsAtOnce start x

/-- The bundle that a rule has for an asset, by its type and the hash of its id. -/
def keyOf (rule : ManualRule) (asset : Asset) : ManualKey :=
  ⟨rule.name, asset.fileType, (Digest.hash64 (Digest.utf8 asset.id)).toNat % rule.split, rule.split⟩

theorem partitionOf_eq_ok {rule : ManualRule} (splits : 1 ≤ rule.split) (id : String) :
    rule.partitionOf id = .ok ((Digest.hash64 (Digest.utf8 id)).toNat % rule.split) := by
  rw [partitionOf, if_neg (by omega)]

end ManualRule

namespace Plan

variable {p : Plan} {i : Index} {config : Config} {packing : KeyMap AssetKey (KeySet AssetKey)}
  {x c : AssetKey} {asset : Asset} {rule : ManualRule} {key : ManualKey} {e : Extraction}

/-- The root lets assets go into manual bundles. -/
def LetsGo (p : Plan) (c : AssetKey) : Prop :=
  ∃ r, p.root? c = some r ∧ r.isSingleFile = false ∧ r.triggers.inline = false ∧
    r.triggers.isolated = false

/-- The asset may be moved into a manual bundle: it is splittable and no root, and a root that would
package it lets it go. -/
structure Movable (p : Plan) (i : Index) (packing : KeyMap AssetKey (KeySet AssetKey))
    (x : AssetKey) (asset : Asset) : Prop where
  known : i.asset? x = some asset
  splittable : asset.isSplittable = true
  notRoot : p.root? x = none
  consumed : ∃ c ∈ packing.setAt x, p.LetsGo c

/-- The bundle is that of the first rule that matches the asset, which may be moved. -/
def GoesTo (p : Plan) (i : Index) (config : Config) (packing : KeyMap AssetKey (KeySet AssetKey))
    (x : AssetKey) (key : ManualKey) : Prop :=
  ∃ asset earlier rule later, p.Movable i packing x asset ∧
    config.manualRules = earlier ++ rule :: later ∧
    rule.Matches i config.projectRoot x asset ∧
    (∀ other ∈ earlier, ¬other.Matches i config.projectRoot x asset) ∧ key = rule.keyOf asset

theorem mem_extractableConsumers_iff {consumers : KeySet AssetKey} :
    c ∈ p.extractableConsumers consumers ↔ c ∈ consumers ∧ p.LetsGo c := by
  rw [mem_extractableConsumers]
  simp only [LetsGo, Root.isExtractable, Bool.and_eq_true, Bool.not_eq_true', and_assoc]

theorem isNamedBy_iff : p.isNamedBy config rule x asset = true ↔
    p.root? x = none ∧ asset.isSplittable = true ∧
      (∀ types, rule.types = some types → asset.fileType ∈ types) ∧
      ∃ glob ∈ rule.assets,
        Glob.isMatch glob (config.projectRoot.resolveFrom asset.filePath).text = true := by
  simp only [isNamedBy, ManualRule.matchesType, ManualRule.matchesPath, KeyMap.contains, root?,
    Bool.and_eq_true, Bool.not_eq_true', Option.isSome_eq_false_iff, Option.isNone_iff_eq_none,
    Option.all_eq_true, decide_eq_true_eq, List.any_eq_true, and_assoc]

theorem inScope_iff : (rule.root.map (i.synchronousSubgraph config.projectRoot)).all
      (fun s => decide (x ∈ s)) = true ↔
    ∀ root, rule.root = some root → ∃ start, i.IsFile config.projectRoot root start ∧
      ReflTransGen i.DependsAtOnce start x := by
  simp only [Option.all_eq_true, decide_eq_true_eq, Option.map_eq_some_iff, forall_exists_index,
    and_imp, forall_apply_eq_imp_iff₂, Index.mem_synchronousSubgraph]

theorem consumed_iff : (!(p.extractableConsumers (packing.setAt x)).isEmpty) = true ↔
    ∃ c ∈ packing.setAt x, p.LetsGo c := by
  rw [Bool.not_eq_true', ← Bool.not_eq_true, KeySet.isEmpty_iff]
  simp only [mem_extractableConsumers_iff, not_forall, not_not]

/-- The bundle that a rule with partitions has for an asset. -/
theorem keyUnder?_eq_some_iff (splits : 1 ≤ rule.split) :
    p.keyUnder? i config packing x rule = some key ↔
      ∃ asset, p.Movable i packing x asset ∧ rule.Matches i config.projectRoot x asset ∧
        key = rule.keyOf asset := by
  simp only [keyUnder?, Option.bind_eq_bind, Option.bind_eq_some_iff, Option.ite_none_right_eq_some,
    Bool.and_eq_true, isNamedBy_iff, inScope_iff, consumed_iff, ManualRule.partitionOf_eq_ok splits,
    Except.toOption, Option.map_some, Option.some.injEq]
  constructor
  · rintro ⟨asset, known, ⟨⟨⟨notRoot, splittable, type, path⟩, inScope⟩, consumed⟩, rfl⟩
    exact ⟨asset, ⟨known, splittable, notRoot, consumed⟩, ⟨path, type, inScope⟩, rfl⟩
  · rintro ⟨asset, ⟨known, splittable, notRoot, consumed⟩, ⟨path, type, inScope⟩, rfl⟩
    exact ⟨asset, known, ⟨⟨⟨notRoot, splittable, type, path⟩, inScope⟩, consumed⟩, rfl⟩

/-- The first rule that has a bundle for the asset is the first one that matches it. -/
theorem manualKeyOf?_eq_some_iff (splits : ∀ rule ∈ config.manualRules, 1 ≤ rule.split) :
    p.manualKeyOf? i config packing x = some key ↔ p.GoesTo i config packing x key := by
  rw [manualKeyOf?, List.findSome?_eq_some_iff]
  constructor
  · rintro ⟨earlier, rule, later, rules, has, none⟩
    have listed : ∀ other ∈ earlier ++ rule :: later, 1 ≤ other.split := rules ▸ splits
    obtain ⟨asset, movable, isMatch, rfl⟩ := (keyUnder?_eq_some_iff (listed rule (by simp))).1 has
    refine ⟨asset, earlier, rule, later, movable, rules, isMatch, ?_, rfl⟩
    intro other before matchesToo
    have has := (keyUnder?_eq_some_iff (listed other (List.mem_append_left _ before))).2
      ⟨asset, movable, matchesToo, rfl⟩
    rw [none other before] at has
    cases has
  · rintro ⟨asset, earlier, rule, later, movable, rules, isMatch, none, rfl⟩
    have listed : ∀ other ∈ earlier ++ rule :: later, 1 ≤ other.split := rules ▸ splits
    refine ⟨earlier, rule, later, rules, ?_, ?_⟩
    · exact (keyUnder?_eq_some_iff (listed rule (by simp))).2 ⟨asset, movable, isMatch, rfl⟩
    · intro other before
      by_contra has
      obtain ⟨key, has⟩ := Option.ne_none_iff_exists'.1 has
      obtain ⟨found, movableToo, matchesToo, _⟩ :=
        (keyUnder?_eq_some_iff (listed other (List.mem_append_left _ before))).1 has
      cases movable.known.symm.trans movableToo.known
      exact none other before matchesToo

/-- Some rule has a bundle for an asset if one matches it. -/
theorem isSome_manualKeyOf?_iff (splits : ∀ rule ∈ config.manualRules, 1 ≤ rule.split) :
    (p.manualKeyOf? i config packing x).isSome = true ↔ ∃ asset, p.Movable i packing x asset ∧
      ∃ rule ∈ config.manualRules, rule.Matches i config.projectRoot x asset := by
  rw [manualKeyOf?, List.findSome?_isSome_iff]
  simp only [Option.isSome_iff_exists]
  constructor
  · rintro ⟨rule, listed, key, has⟩
    obtain ⟨asset, movable, isMatch, _⟩ := (keyUnder?_eq_some_iff (splits rule listed)).1 has
    exact ⟨asset, movable, rule, listed, isMatch⟩
  · rintro ⟨asset, movable, rule, listed, isMatch⟩
    exact ⟨rule, listed, _,
      (keyUnder?_eq_some_iff (splits rule listed)).2 ⟨asset, movable, isMatch, rfl⟩⟩

end Plan

namespace Extraction

variable {p : Plan} {packing : KeyMap AssetKey (KeySet AssetKey)} {e : Extraction}
  {chosen : AssetKey → Option ManualKey} {x : AssetKey}

/-- A bundle is there if it was chosen for some asset. -/
theorem Follows.exists_bundle_iff (follows : e.Follows p packing chosen) {key : ManualKey} :
    (∃ b, e.bundles.get? key = some b) ↔ ∃ x, chosen x = some key := by
  constructor
  · rintro ⟨b, found⟩
    obtain ⟨x, has⟩ := follows.filled key b found
    exact ⟨x, (follows.assets key x).1 (bundleAt_of_get? found ▸ has)⟩
  · rintro ⟨x, chose⟩
    have has := (follows.assets key x).2 chose
    unfold bundleAt at has
    cases found : e.bundles.get? key with
    | none =>
      rw [found] at has
      cases has
    | some b => exact ⟨b, rfl⟩

theorem Follows.left_of_claimed (follows : e.Follows p packing chosen) (claimed : x ∈ e.claimed)
    {roots : KeySet AssetKey} (waits : packing.get? x = some roots) :
    ∃ left, e.consumers.get? x = some left ∧ ∀ c, c ∈ left ↔ c ∈ roots ∧ ¬p.LetsGo c := by
  refine ⟨roots.diff (p.extractableConsumers roots), ?_, ?_⟩
  · rw [follows.left, waits, Option.map_some, if_pos ((follows.claimed x).1 claimed)]
  · intro c
    rw [KeySet.mem_diff, Plan.mem_extractableConsumers_iff]
    constructor
    · rintro ⟨consumer, keeps⟩
      exact ⟨consumer, fun letsGo => keeps ⟨consumer, letsGo⟩⟩
    · rintro ⟨consumer, keeps⟩
      exact ⟨consumer, fun both => keeps both.2⟩

theorem Follows.left_of_unclaimed (follows : e.Follows p packing chosen)
    (unclaimed : x ∉ e.claimed) : e.consumers.get? x = packing.get? x := by
  rw [follows.claimed] at unclaimed
  rw [follows.left]
  simp [unclaimed]

end Extraction

/-- Moving assets into manual bundles, for a plan that has none yet. An asset is claimed if and only
if it may be moved and a rule matches it. It goes to the bundle that the first rule which matches it
has for its type and the hash of its id. The roots that would package it and let it go are taken off
its consumers, and no others are. No other consumers change. A manual bundle is there if some asset
goes to it, and it has these assets and the roots that let one of them go, and nothing else. -/
theorem manual_extraction_is_exact (p : Plan) (i : Index) (config : Config)
    (packing : KeyMap AssetKey (KeySet AssetKey)) (empty : p.manualBundles = ∅)
    (splits : ∀ rule ∈ config.manualRules, 1 ≤ rule.split)
    (known : ∀ x roots, packing.get? x = some roots → i.Known x) :
    ∃ e, (p.extractManualBundles i config packing).result =
        .ok ({ p with manualBundles := e.bundles }, e) ∧
      (∀ x, x ∈ e.claimed ↔ ∃ asset, p.Movable i packing x asset ∧
        ∃ rule ∈ config.manualRules, rule.Matches i config.projectRoot x asset) ∧
      (∀ x ∈ e.claimed, ∃! key, p.GoesTo i config packing x key) ∧
      (∀ key, (∃ b, e.bundles.get? key = some b) ↔ ∃ x, p.GoesTo i config packing x key) ∧
      (∀ key b, e.bundles.get? key = some b →
        (∀ x, x ∈ b.assets ↔ p.GoesTo i config packing x key) ∧
        ∀ c, c ∈ b.consumers ↔
          ∃ x, p.GoesTo i config packing x key ∧ c ∈ packing.setAt x ∧ p.LetsGo c) ∧
      (∀ x ∈ e.claimed, ∀ roots, packing.get? x = some roots →
        ∃ left, e.consumers.get? x = some left ∧ ∀ c, c ∈ left ↔ c ∈ roots ∧ ¬p.LetsGo c) ∧
      ∀ x, x ∉ e.claimed → e.consumers.get? x = packing.get? x := by
  obtain ⟨extracted, e, moved⟩ := Plan.exists_extractManualBundles p splits known
  obtain ⟨extraction, rfl⟩ := Plan.extractManualBundles_ok moved
  have follows := Extraction.follows_extraction empty extraction
  have goes (x : AssetKey) (key : ManualKey) :
      p.manualKeyOf? i config packing x = some key ↔ p.GoesTo i config packing x key :=
    Plan.manualKeyOf?_eq_some_iff splits
  refine ⟨e, moved, ?_, ?_, ?_, ?_, ?_, ?_⟩
  · intro x
    rw [follows.claimed, Plan.isSome_manualKeyOf?_iff splits]
  · intro x claimed
    obtain ⟨key, chose⟩ := Option.isSome_iff_exists.1 ((follows.claimed x).1 claimed)
    refine ⟨key, (goes x key).1 chose, ?_⟩
    intro other goesToo
    exact Option.some.inj (((goes x other).2 goesToo).symm.trans chose)
  · intro key
    simp only [follows.exists_bundle_iff, goes]
  · intro key b found
    rw [← Extraction.bundleAt_of_get? found]
    constructor
    · intro x
      rw [follows.assets, goes]
    · intro c
      simp only [follows.consumers, goes, Plan.mem_extractableConsumers_iff]
  · intro x claimed roots waits
    exact follows.left_of_claimed claimed waits
  · intro x unclaimed
    exact follows.left_of_unclaimed unclaimed

/-- A page and a frame that is written into it. Both need a library at once. -/
def libraryOfFrame : Index :=
  let link (id : String) : Link := ⟨{ id, specifier := id }, some 1⟩
  ⟨[⟨{ id := "frame", filePath := ⟨"/frame"⟩ }, "", [link "frame to lib"]⟩,
    ⟨{ id := "lib/index", filePath := ⟨"/lib/index"⟩ }, "", []⟩,
    ⟨{ id := "page", filePath := ⟨"/page"⟩ }, "", [link "page to lib"]⟩]⟩

def libraryOfFramePlan : Plan where
  roots := .ofList [(0, { assetId := "frame", triggers := { inline := true } }),
    (2, { assetId := "page", triggers := { lazy := true } })]

/-- The page and the frame would package the library. -/
def libraryOfFramePacking : KeyMap AssetKey (KeySet AssetKey) := .ofList [(1, .ofList [0, 2])]

def vendorOfPage : ManualRule where
  name := "vendor"
  root := some ⟨"/page"⟩
  assets := ["/lib/*"]
  split := 2

/-- The first rule is for style sheets only, and the last one is for everything. -/
def vendorOfPageConfig : Config where
  manualRules := [{ name := "styles", assets := ["/lib/*"], types := some [.css] }, vendorOfPage,
    { name := "rest", assets := ["/**"] }]

/-- The library goes to the second partition that the rule in the middle has. The page loads it from
there, and the frame keeps its copy. -/
theorem libraryOfFrame_moved :
    ∃ e, (libraryOfFramePlan.extractManualBundles libraryOfFrame vendorOfPageConfig
        libraryOfFramePacking).result =
        .ok ({ libraryOfFramePlan with manualBundles := e.bundles }, e) ∧
      1 ∈ e.claimed ∧
      (∃ b, e.bundles.get? ⟨"vendor", .js, 1, 2⟩ = some b ∧ 1 ∈ b.assets ∧ 2 ∈ b.consumers ∧
        0 ∉ b.consumers) ∧
      (¬∃ b, e.bundles.get? ⟨"rest", .js, 0, 1⟩ = some b) ∧
      ∃ left, e.consumers.get? 1 = some left ∧ 0 ∈ left ∧ 2 ∉ left := by
  have page : libraryOfFramePlan.LetsGo 2 := ⟨_, rfl, rfl, rfl, rfl⟩
  have frame : ¬libraryOfFramePlan.LetsGo 0 := by
    rintro ⟨_, found, _, inline, _⟩
    cases found
    cases inline
  have movable : libraryOfFramePlan.Movable libraryOfFrame libraryOfFramePacking 1
      { id := "lib/index", filePath := ⟨"/lib/index"⟩ } := ⟨rfl, rfl, rfl, 2, by decide, page⟩
  have matched : vendorOfPage.Matches libraryOfFrame ⟨"/"⟩ 1
      { id := "lib/index", filePath := ⟨"/lib/index"⟩ } := by
    refine ⟨⟨"/lib/*", List.mem_cons_self, by decide +kernel⟩, ?_, ?_⟩
    · rintro _ ⟨⟩
    · rintro _ ⟨⟩
      exact ⟨2, ⟨_, rfl, by decide +kernel⟩, .single ⟨_, List.mem_cons_self, rfl, rfl⟩⟩
  have goes : libraryOfFramePlan.GoesTo libraryOfFrame vendorOfPageConfig libraryOfFramePacking 1
      ⟨"vendor", .js, 1, 2⟩ := by
    refine ⟨_, [_], vendorOfPage, _, movable, rfl, matched, ?_, by decide +kernel⟩
    intro other earlier isMatch
    rw [List.mem_singleton.1 earlier] at isMatch
    exact absurd (isMatch.type [.css] rfl) (by decide)
  have onlyLib : ∀ x roots, libraryOfFramePacking.get? x = some roots → x = 1 := by
    intro x roots found
    have listed : x ∈ libraryOfFramePacking.keys := KeyMap.mem_keys_iff.2 ⟨roots, found⟩
    exact List.mem_singleton.1 listed
  have known : ∀ x roots, libraryOfFramePacking.get? x = some roots → libraryOfFrame.Known x := by
    intro x roots found
    rw [onlyLib x roots found]
    exact ⟨_, rfl⟩
  obtain ⟨e, moved, claimed, chosen, bundles, contents, left, _⟩ :=
    manual_extraction_is_exact libraryOfFramePlan libraryOfFrame vendorOfPageConfig
      libraryOfFramePacking rfl (by decide) known
  have isClaimed : 1 ∈ e.claimed :=
    (claimed 1).2 ⟨_, movable, vendorOfPage, by decide, matched⟩
  obtain ⟨b, found⟩ := (bundles _).2 ⟨1, goes⟩
  obtain ⟨assets, consumers⟩ := contents _ b found
  obtain ⟨kept, isLeft, keeps⟩ := left 1 isClaimed _ rfl
  refine ⟨e, moved, isClaimed, ⟨b, found, (assets 1).2 goes,
    (consumers 2).2 ⟨1, goes, by decide, page⟩, ?_⟩, ?_, kept, isLeft,
    (keeps 0).2 ⟨by decide, frame⟩, fun stays => ((keeps 2).1 stays).2 page⟩
  · intro loads
    obtain ⟨_, _, _, letsGo⟩ := (consumers 0).1 loads
    exact frame letsGo
  · rw [bundles]
    rintro ⟨x, goesToo⟩
    obtain ⟨_, _, _, _, ⟨_, _, _, c, waits, _⟩, _⟩ := id goesToo
    obtain ⟨roots, found, _⟩ := KeyMap.mem_setAt_iff.1 waits
    obtain rfl := onlyLib x roots found
    exact absurd ((chosen 1 isClaimed).unique goes goesToo) (by decide)

end CodeSplit
