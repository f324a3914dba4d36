import CodeSplit.Proofs.OutputBundles

/-!
The identities of manual bundles. A bundle has a key of four parts, but its id is made from a text
in which the number of partitions does not stand. Bundles of different keys hold different assets,
so bundling fails as soon as two of them get one id.
-/
namespace CodeSplit

/-- What stands behind the last mark of a text can be told from what stands before it. -/
theorem eq_of_append_mark {mark : Char} {xs ys ds es : List Char} (left : mark ∉ ds)
    (right : mark ∉ es) (same : xs ++ mark :: ds = ys ++ mark :: es) : xs = ys ∧ ds = es := by
  rcases List.append_eq_append_iff.1 same with ⟨more, rfl, rest⟩ | ⟨more, rfl, rest⟩
  · cases more with
    | nil => exact ⟨(List.append_nil xs).symm, (List.cons.inj rest).2⟩
    | cons c more =>
      rw [(List.cons.inj rest).2] at left
      exact absurd (List.mem_append_right more List.mem_cons_self) left
  · cases more with
    | nil => exact ⟨List.append_nil ys, (List.cons.inj rest).2.symm⟩
    | cons c more =>
      rw [(List.cons.inj rest).2] at right
      exact absurd (List.mem_append_right more List.mem_cons_self) right

namespace ManualKey

variable {a b : ManualKey}

theorem toList_toString (n : Nat) : (toString n).toList = Nat.toDigits 10 n := by
  rw [Nat.toString_eq_ofList_toDigits, String.toList_ofList]

theorem hyphen_not_mem_toDigits (n : Nat) : '-' ∉ Nat.toDigits 10 n := by
  intro member
  exact absurd (Nat.isDigit_of_mem_toDigits (by decide) (by decide) member) (by decide)

/-- Names with a partition are the same only if both parts are. -/
theorem partitioned_inj {s t : String} {m n : Nat} :
    s ++ "-" ++ toString m = t ++ "-" ++ toString n ↔ s = t ∧ m = n := by
  refine ⟨fun same => ?_, fun same => by rw [same.1, same.2]⟩
  have same := congrArg String.toList same
  simp only [String.toList_append, List.append_assoc, toList_toString] at same
  obtain ⟨names, digits⟩ :=
    eq_of_append_mark (hyphen_not_mem_toDigits m) (hyphen_not_mem_toDigits n) same
  refine ⟨String.toList_injective names, ?_⟩
  rw [← Nat.ofDigitChars_ten_toDigits (n := m), digits, Nat.ofDigitChars_ten_toDigits]

/-- How two keys can be given the same name. -/
inductive Alike (a b : ManualKey) : Prop
  /-- Neither bundle is split. -/
  | whole : a.split ≤ 1 → b.split ≤ 1 → a.name = b.name → Alike a b
  /-- Both are split, and they are the same partition of the same name. -/
  | parts : 1 < a.split → 1 < b.split → a.name = b.name → a.partition = b.partition → Alike a b
  /-- The name of the first, which is not split, is spelled like a partition of the second. -/
  | spelled : a.split ≤ 1 → 1 < b.split → a.name = b.name ++ "-" ++ toString b.partition →
      Alike a b
  /-- The name of the second is spelled like a partition of the first. -/
  | spells : 1 < a.split → b.split ≤ 1 → a.name ++ "-" ++ toString a.partition = b.name →
      Alike a b

theorem qualifiedName_eq_iff : a.qualifiedName = b.qualifiedName ↔ a.Alike b := by
  unfold qualifiedName
  constructor
  · intro same
    split at same
    · rename_i left
      split at same
      · rename_i right
        obtain ⟨names, partitions⟩ := partitioned_inj.1 same
        exact .parts left right names partitions
      · rename_i right
        exact .spells left (Nat.not_lt.1 right) same
    · rename_i left
      split at same
      · rename_i right
        exact .spelled (Nat.not_lt.1 left) right same
      · rename_i right
        exact .whole (Nat.not_lt.1 left) (Nat.not_lt.1 right) same
  · intro alike
    cases alike with
    | whole left right names => rw [if_neg (by omega), if_neg (by omega), names]
    | parts left right names partitions => rw [if_pos left, if_pos right, names, partitions]
    | spelled left right names => rw [if_neg (by omega), if_pos right, names]
    | spells left right names => rw [if_pos left, if_neg (by omega), names]

end ManualKey

/-- The key is of a bundle that the rule asks for. -/
structure ManualRule.Declares (rule : ManualRule) (key : ManualKey) : Prop where
  name : key.name = rule.name
  split : key.split = rule.split
  type : rule.matchesType key.fileType = true
  partition : key.partition < key.split

/-- Two bundles that rules ask for, with the same name and type, are split differently. -/
theorem ManualKey.Alike.split_ne {a b : ManualKey} (alike : a.Alike b) (distinct : a ≠ b)
    (types : a.fileType = b.fileType) (left : a.partition < a.split)
    (right : b.partition < b.split) : a.split ≠ b.split := by
  intro splits
  apply distinct
  obtain ⟨name, type, partition, split⟩ := a
  obtain ⟨otherName, otherType, otherPartition, otherSplit⟩ := b
  simp only at types left right splits
  subst types splits
  cases alike with
  | whole small _ names =>
    simp only at small names
    rw [names, show partition = otherPartition by omega]
  | parts _ _ names partitions =>
    simp only at names partitions
    rw [names, partitions]
  | spelled small large =>
    simp only at small large
    omega
  | spells large small =>
    simp only at small large
    omega

namespace Plan

variable {p : Plan} {i : Index} {config : Config} {entries : List Entry}
  {packing : KeyMap AssetKey (KeySet AssetKey)}

theorem exists_rule_of_manualKeyOf? {x : AssetKey} {key : ManualKey}
    (chosen : p.manualKeyOf? i config packing x = some key) :
    ∃ rule ∈ config.manualRules, rule.Declares key := by
  obtain ⟨rule, listed, chosen⟩ := List.exists_of_findSome?_eq_some chosen
  refine ⟨rule, listed, ?_⟩
  unfold keyUnder? at chosen
  obtain ⟨asset, _, chosen⟩ := Option.bind_eq_some_iff.1 chosen
  simp only [] at chosen
  split at chosen
  · rename_i moves
    obtain ⟨partition, part, rfl⟩ := Option.map_eq_some_iff.1 chosen
    unfold ManualRule.partitionOf at part
    split at part
    · cases part
    · rename_i positive
      cases part
      refine ⟨rfl, rfl, ?_, Nat.mod_lt _ (Nat.pos_of_ne_zero positive)⟩
      simp only [isNamedBy, Bool.and_eq_true] at moves
      exact moves.1.1.1.2
  · cases chosen

/-- Rules choose a manual bundle for each asset, and the bundles of a plan that is returned hold
what was chosen for them. -/
theorem manualBundles_of_planTarget (success : (i.planTarget config entries).result = .ok p) :
    ∃ chosen : AssetKey → Option ManualKey,
      (∀ x key, chosen x = some key → ∃ rule ∈ config.manualRules, rule.Declares key) ∧
      ∀ key b, p.manualBundles.get? key = some b → ∀ x, x ∈ b.assets ↔ chosen x = some key := by
  obtain ⟨entry, _, walked, reach, packing, extracted, e, placed, walks, consumed, moved, shared,
    limited⟩ := Index.planTarget_ok success
  have places := Index.places_of_passes walks consumed moved shared
  have empty : walked.manualBundles = ∅ := by rw [(Index.walkedPlan_ok walks).1]; rfl
  have follows := Extraction.follows_extraction empty (extractManualBundles_ok moved).1
  refine ⟨walked.manualKeyOf? i config packing, fun x key => exists_rule_of_manualKeyOf?, ?_⟩
  intro key b found x
  rw [moved_of_limitRequests places moved shared limited found]
  exact follows.assets key x

/-- The manual bundles of different keys have different ids of assets. -/
theorem assetIds_ne_of_manual (success : (i.planTarget config entries).result = .ok p)
    {a b : ManualKey} (distinct : a ≠ b) {left right : ManualBundle}
    (hasLeft : p.manualBundles.get? a = some left) (hasRight : p.manualBundles.get? b = some right)
    (differ : i.IdsDiffer) {ids others : List String} (leftIds : i.idsOf left.assets = .ok ids)
    (rightIds : i.idsOf right.assets = .ok others) : ids ≠ others := by
  rintro rfl
  obtain ⟨chosen, _, holds⟩ := manualBundles_of_planTarget success
  obtain ⟨x, inLeft⟩ := manual_of_planTarget success hasLeft
  have inRight := inLeft
  rw [differ.idsOf_inj leftIds rightIds] at inRight
  have isLeft := (holds a left hasLeft x).1 inLeft
  have isRight := (holds b right hasRight x).1 inRight
  exact distinct (Option.some_inj.1 (isLeft.symm.trans isRight))

end Plan

/-- The identities of two manual bundles with different keys in a plan of a build. Each is one that
a declaration asks for. Their names and extensions agree exactly if the extensions do and the keys
can be given the same name; if they are of one type, they are then split differently. Bundling fails
if their ids are the same, as they are when names and extensions agree. -/
theorem manual_identities_agree_iff (config : Config) (g : AssetGraph) (build : Bundler.Build)
    (p : Plan) (a b : ManualKey) (left right : ManualBundle)
    (built : (Bundler.build config g).result = .ok build) (isPlan : p ∈ build.plans)
    (distinct : a ≠ b) (hasLeft : p.manualBundles.get? a = some left)
    (hasRight : p.manualBundles.get? b = some right) :
    (∃ r ∈ config.manualRules, r.Declares a) ∧ (∃ r ∈ config.manualRules, r.Declares b) ∧
    ((a.qualifiedName, a.fileType.extension) = (b.qualifiedName, b.fileType.extension) ↔
      a.fileType.extension = b.fileType.extension ∧ a.Alike b) ∧
    (a.Alike b → a.fileType = b.fileType → a.split ≠ b.split) ∧
    ((a.qualifiedName, a.fileType.extension) = (b.qualifiedName, b.fileType.extension) →
      BundleName.manualBundleId a.qualifiedName a.fileType p.target.distDir =
        BundleName.manualBundleId b.qualifiedName b.fileType p.target.distDir) ∧
    (BundleName.manualBundleId a.qualifiedName a.fileType p.target.distDir =
        BundleName.manualBundleId b.qualifiedName b.fileType p.target.distDir →
      ∀ into : BundleGraph, into.WellKeyed → (Bundler.bundle config g into).2.result ≠ .ok ()) := by
  obtain ⟨entries, planned⟩ := (Bundler.plans_of_build built).2 p isPlan
  have writable := Plan.writable_of_planTarget planned
  obtain ⟨chosen, declared, holds⟩ := Plan.manualBundles_of_planTarget planned
  have asks {key : ManualKey} {bundle : ManualBundle}
      (found : p.manualBundles.get? key = some bundle) :
      ∃ r ∈ config.manualRules, r.Declares key := by
    obtain ⟨x, member⟩ := writable.manual key bundle found
    exact declared x key ((holds key bundle found x).1 member)
  have writes {key : ManualKey} {bundle : ManualBundle}
      (found : p.manualBundles.get? key = some bundle) :
      ∃ made ∈ Bundler.plannedAll (.ofGraph g) config build.plans,
        p.manualBundle (.ofGraph g) key bundle = .ok made := by
    obtain ⟨made, isMade⟩ := Plan.exists_manualBundle key (writable.manual key bundle found)
      (writable.within.manual key bundle found).1
    refine ⟨made, Bundler.mem_plannedAll.2 ⟨p, isPlan, .loaded key.fileType bundle.consumers, ?_⟩,
      isMade⟩
    exact Plan.mem_plannedBundles_loaded.2 (.inr ⟨key, bundle, found, rfl, rfl, isMade.symm⟩)
  obtain ⟨r, isRule, declaresLeft⟩ := asks hasLeft
  obtain ⟨s, isOther, declaresRight⟩ := asks hasRight
  refine ⟨⟨r, isRule, declaresLeft⟩, ⟨s, isOther, declaresRight⟩, ?_, ?_, ?_, ?_⟩
  · rw [Prod.mk.injEq, ManualKey.qualifiedName_eq_iff, and_comm]
  · intro alike types
    exact alike.split_ne distinct types declaresLeft.partition declaresRight.partition
  · intro same
    obtain ⟨names, extensions⟩ := Prod.mk.inj same
    unfold BundleName.manualBundleId
    rw [names, extensions]
  · intro sameId into keyed success
    obtain ⟨first, leftMade, makesLeft⟩ := writes hasLeft
    obtain ⟨second, rightMade, makesRight⟩ := writes hasRight
    obtain ⟨leftId, ⟨_, leftIds⟩, _⟩ := Plan.manualBundle_ok makesLeft
    obtain ⟨rightId, ⟨_, rightIds⟩, _⟩ := Plan.manualBundle_ok makesRight
    refine Plan.assetIds_ne_of_manual planned distinct hasLeft hasRight (Index.idsDiffer_ofGraph g)
      leftIds rightIds ?_
    exact Bundler.assetIds_eq_of_bundle keyed success built leftMade rightMade
      (leftId.trans (sameId.trans rightId.symm))

/-- A page has a library and a theme. -/
def themeAndLibrary : AssetGraph :=
  { nodes := [.root, .dependency { id := "entry", specifier := "index", isEntry := true },
      .asset { id := "index", filePath := ⟨"/index"⟩ },
      .dependency { id := "index to lib", specifier := "lib" },
      .asset { id := "lib", filePath := ⟨"/lib"⟩ },
      .dependency { id := "index to theme", specifier := "theme" },
      .asset { id := "theme", filePath := ⟨"/theme"⟩ }]
    edges := [(0, 1), (1, 2), (2, 3), (3, 4), (2, 5), (5, 6)] }

/-- Two declarations of one name, of which the first spreads its assets over two partitions and the
second over three. -/
def vendorTwice : Settings where
  options := { manualSharedBundles := some [
    { name := "vendor", assets := ["theme"], split := some 2 },
    { name := "vendor", assets := ["lib"], split := some 3 }] }

def vendorTwiceConfig : Config := (vendorTwice.resolve .development ⟨"/"⟩ {}).1

theorem themeAndLibrary_plan : (Bundler.build vendorTwiceConfig themeAndLibrary).result.map
    (fun build => decide (∃ p ∈ build.plans,
      p.manualBundles.get? ⟨"vendor", .js, 0, 2⟩ = some ⟨.ofList [2], .ofList [0]⟩ ∧
      p.manualBundles.get? ⟨"vendor", .js, 0, 3⟩ = some ⟨.ofList [1], .ofList [0]⟩)) =
        .ok true := by
  decide +kernel

/-- The theme is in the first partition of two, the library in the first of three. Both bundles are
called `vendor-0` and get one id, so nothing can be written. -/
theorem themeAndLibrary_same_identity :
    ∃ build p left right, (Bundler.build vendorTwiceConfig themeAndLibrary).result = .ok build ∧
      p ∈ build.plans ∧ p.manualBundles.get? ⟨"vendor", .js, 0, 2⟩ = some left ∧
      p.manualBundles.get? ⟨"vendor", .js, 0, 3⟩ = some right ∧
      ManualKey.qualifiedName ⟨"vendor", .js, 0, 2⟩ = "vendor-0" ∧
      ManualKey.qualifiedName ⟨"vendor", .js, 0, 3⟩ = "vendor-0" ∧
      (Bundler.bundle vendorTwiceConfig themeAndLibrary .empty).2.result =
        .error (.failure
          (.differentContents (BundleName.manualBundleId "vendor-0" .js ⟨"dist"⟩))) := by
  obtain ⟨build, built, listed⟩ := map_eq_ok_iff.1 themeAndLibrary_plan
  obtain ⟨p, isPlan, left, right⟩ := of_decide_eq_true listed
  exact ⟨build, p, _, _, built, isPlan, left, right, by decide +kernel, by decide +kernel,
    by decide +kernel⟩

/-- The two keys can be given the same name since they are split differently, and bundling fails
into whatever graph. -/
theorem themeAndLibrary_never_written :
    ∃ build p left right, (Bundler.build vendorTwiceConfig themeAndLibrary).result = .ok build ∧
      p ∈ build.plans ∧ p.manualBundles.get? ⟨"vendor", .js, 0, 2⟩ = some left ∧
      p.manualBundles.get? ⟨"vendor", .js, 0, 3⟩ = some right ∧
      ManualKey.Alike ⟨"vendor", .js, 0, 2⟩ ⟨"vendor", .js, 0, 3⟩ ∧
      ∀ into : BundleGraph, into.WellKeyed →
        (Bundler.bundle vendorTwiceConfig themeAndLibrary into).2.result ≠ .ok () := by
  obtain ⟨build, built, listed⟩ := map_eq_ok_iff.1 themeAndLibrary_plan
  obtain ⟨p, isPlan, hasLeft, hasRight⟩ := of_decide_eq_true listed
  obtain ⟨_, _, agree, _, sameId, fails⟩ := manual_identities_agree_iff _ _ _ _ _ _ _ _ built isPlan
    (by decide) hasLeft hasRight
  have same : (ManualKey.qualifiedName ⟨"vendor", .js, 0, 2⟩, FileType.js.extension) =
      (ManualKey.qualifiedName ⟨"vendor", .js, 0, 3⟩, FileType.js.extension) := by decide +kernel
  exact ⟨build, p, _, _, built, isPlan, hasLeft, hasRight, (agree.1 same).2, fails (sameId same)⟩

end CodeSplit
