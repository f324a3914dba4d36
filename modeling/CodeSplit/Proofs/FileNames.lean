import CodeSplit.Proofs.OutputBundles
import Mathlib.Data.String.Basic

/-!
The names of the files that bundles go to. A bundle that is not named by a stable name has the first
digits of its id in its name, so such names are different as the ids are. Stable names have no such
digits, and nothing keeps them apart.
-/
namespace CodeSplit

open BundleGraph
open Digest (IsDigest)

/-- Where two texts of one length, marked off at both ends, end another text before different rests,
the longer of the rests has the other ending in it. -/
theorem suffix_of_marked {mark : Char} {xs ys ds es text : List Char} (plain : mark ∉ xs)
    (otherPlain : mark ∉ ys) (sameLength : xs.length = ys.length) (differ : xs ≠ ys)
    (left : mark :: xs ++ mark :: ds <:+ text) (right : mark :: ys ++ mark :: es <:+ text) :
    mark :: xs ++ mark :: ds <:+ mark :: es ∨ mark :: ys ++ mark :: es <:+ mark :: ds := by
  -- a rest that is longer than the other reaches back to the first mark at least
  have within {xs ds ys es : List Char} (plain : mark ∉ xs)
      (left : mark :: xs ++ mark :: ds <:+ text) (right : mark :: ys ++ mark :: es <:+ text)
      (longer : ds.length < es.length) : mark :: xs ++ mark :: ds <:+ mark :: es := by
    have rest : mark :: es <:+ text := (List.suffix_append _ _).trans right
    by_contra outside
    have short : (mark :: es).length ≤ (mark :: xs ++ mark :: ds).length := by
      by_contra long
      exact outside (List.suffix_of_suffix_length_le left rest (Nat.le_of_not_le long))
    obtain ⟨front, same⟩ := List.suffix_of_suffix_length_le rest left short
    cases front with
    | nil => exact outside ⟨[], same.symm⟩
    | cons c front =>
      have same := (List.cons.inj same).2
      rcases List.append_eq_append_iff.1 same with ⟨more, rfl, tail⟩ | ⟨more, rfl, tail⟩
      · cases more with
        | nil =>
          rw [(List.cons.inj tail).2] at longer
          exact absurd longer (Nat.lt_irrefl _)
        | cons d more =>
          obtain ⟨rfl, _⟩ := List.cons.inj tail
          exact plain (List.mem_append_right front List.mem_cons_self)
      · have lengths := congrArg List.length tail
        simp only [List.length_append, List.length_cons] at lengths
        omega
  rcases Nat.lt_trichotomy ds.length es.length with shorter | equal | longer
  · exact .inl (within plain left right shorter)
  · have lengths : (mark :: xs ++ mark :: ds).length = (mark :: ys ++ mark :: es).length := by
      simp only [List.length_append, List.length_cons, sameLength, equal]
    have same := (List.suffix_of_suffix_length_le left right (Nat.le_of_eq lengths)).eq_of_length
      lengths
    exact absurd (List.append_inj (List.cons.inj same).2 sameLength).1 differ
  · exact .inr (within otherPlain right left longer)

namespace Digest

theorem IsDigest.utf8ByteSize {id : String} (digest : IsDigest id) : id.utf8ByteSize = 16 := by
  have count (cs : List Char) (single : ∀ c ∈ cs, c.utf8Size = 1) :
      String.utf8Len cs = cs.length := by
    induction cs with
    | nil => rfl
    | cons c cs ih =>
      rw [String.utf8Len, ih fun d member => single d (List.mem_cons_of_mem _ member),
        single c List.mem_cons_self, List.length_cons]
  have size := String.utf8ByteSize_ofList id.toList
  rw [String.ofList_toList, count _ fun c member => digest.utf8Size member, digest.length] at size
  exact size

end Digest

namespace BundleName

/-- The part of an id that stands in names: its first eight digits. -/
theorem nameHash_eq {id : String} (digest : IsDigest id) :
    nameHash id = .ok (String.ofList (id.toList.take 8)) := by
  have enough : 8 ≤ id.toList.length := by
    rw [digest.length]
    decide
  have cut := takeBytes?_eq_take (fun c member => digest.utf8Size member) enough
  rw [nameHash, digest.utf8ByteSize, show min 8 16 = 8 from rfl, cut]

theorem length_nameHash {id hash : String} (digest : IsDigest id)
    (isHash : nameHash id = .ok hash) : hash.toList.length = 8 := by
  rw [nameHash_eq digest] at isHash
  cases isHash
  rw [String.toList_ofList, List.length_take, digest.length]
  rfl

theorem point_not_mem_nameHash {id hash : String} (digest : IsDigest id)
    (isHash : nameHash id = .ok hash) : '.' ∉ hash.toList := by
  rw [nameHash_eq digest] at isHash
  cases isHash
  rw [String.toList_ofList]
  intro member
  have digits : "0123456789abcdef".toList.all (fun c => c ≠ '.') = true := by decide
  have isDigit := List.all_eq_true.1 digits '.' (digest.mem (List.mem_of_mem_take member))
  exact absurd rfl (of_decide_eq_true isDigit)

end BundleName

namespace Bundle

variable {b c : Bundle}

/-- The text ends in the digits and the extension of the bundle, as its name does unless that is
stable. -/
def Ends (b : Bundle) (text : String) : Prop :=
  ∃ hash, BundleName.nameHash b.id = .ok hash ∧
    '.' :: hash.toList ++ '.' :: b.fileType.extension.toList <:+ '.' :: text.toList

/-- The end of a name that is not made from the id: all of a stable name, or the extension. -/
def freeEnd (b : Bundle) : String := if b.needsStableName then b.name else b.fileType.extension

theorem ends_of_hashedName {stem : String}
    (named : BundleName.hashedName stem b.id b.fileType = .ok b.name) : b.Ends b.name := by
  obtain ⟨hash, isHash, named⟩ := bind_eq_ok_iff.1 named
  refine ⟨hash, isHash, '.' :: stem.toList, ?_⟩
  rw [← Except.ok.inj named]
  simp [String.toList_append]

theorem ends_of_sharedName (named : BundleName.sharedName b.id b.fileType = .ok b.name) :
    b.Ends b.name := by
  obtain ⟨hash, isHash, named⟩ := bind_eq_ok_iff.1 named
  refine ⟨hash, isHash, [], ?_⟩
  rw [← Except.ok.inj named]
  simp [String.toList_append]

/-- Bundles with different digits have one name only if both names are stable, or if one has the
ending of the other in the part that is not made from its id. -/
theorem stable_or_ends (left : IsDigest b.id) (right : IsDigest c.id)
    (differ : BundleName.nameHash b.id ≠ BundleName.nameHash c.id) (same : b.name = c.name)
    (namesLeft : b.needsStableName = false → b.Ends b.name)
    (namesRight : c.needsStableName = false → c.Ends c.name) :
    (b.needsStableName = true ∧ c.needsStableName = true) ∨
      (c.needsStableName = false ∧ c.Ends b.freeEnd) ∨
      (b.needsStableName = false ∧ b.Ends c.freeEnd) := by
  cases stable : b.needsStableName with
  | true =>
    cases otherStable : c.needsStableName with
    | true => exact .inl ⟨rfl, rfl⟩
    | false =>
      refine .inr (.inl ⟨rfl, ?_⟩)
      rw [freeEnd, if_pos stable, same]
      exact namesRight otherStable
  | false =>
    cases otherStable : c.needsStableName with
    | true =>
      refine .inr (.inr ⟨rfl, ?_⟩)
      rw [freeEnd, if_pos otherStable, ← same]
      exact namesLeft stable
    | false =>
      obtain ⟨hash, isHash, ends⟩ := namesLeft stable
      obtain ⟨other, isOther, otherEnds⟩ := namesRight otherStable
      rw [same] at ends
      have lengths : hash.toList.length = other.toList.length := by
        rw [BundleName.length_nameHash left isHash, BundleName.length_nameHash right isOther]
      have apart : hash.toList ≠ other.toList := by
        intro equal
        rw [isHash, isOther, String.toList_injective equal] at differ
        exact differ rfl
      have leftEnd : b.freeEnd = b.fileType.extension := by rw [freeEnd, stable]; rfl
      have rightEnd : c.freeEnd = c.fileType.extension := by rw [freeEnd, otherStable]; rfl
      rw [leftEnd, rightEnd]
      rcases suffix_of_marked (BundleName.point_not_mem_nameHash left isHash)
        (BundleName.point_not_mem_nameHash right isOther) lengths apart ends otherEnds with
        spelled | spelled
      · exact .inr (.inr ⟨rfl, hash, isHash, spelled⟩)
      · exact .inr (.inl ⟨rfl, other, isOther, spelled⟩)

end Bundle

namespace Plan

variable {p : Plan} {i : Index} {config : Config} {b : Bundle}

/-- The bundle has the name of a root that needs a stable one: its stem and the type. -/
def NamesStably (p : Plan) (i : Index) (config : Config) (b : Bundle) : Prop :=
  ∃ key r start, p.root? key = some r ∧ r.needsStableName = true ∧
    stem i config key r = .ok start ∧ b.name = BundleName.stableName start b.fileType

/-- The names of the bundles to write. -/
theorem name_of_planned {origin : BundleOrigin}
    (listed : (origin, .ok b) ∈ p.plannedBundles i config) :
    (b.needsStableName = true → p.NamesStably i config b) ∧
      (b.needsStableName = false → b.Ends b.name) := by
  cases origin with
  | bucket root fileType =>
    obtain ⟨r, assets, known, _, _, made⟩ := mem_plannedBundles_bucket.1 listed
    obtain ⟨_, _, start, isStem, ⟨stable, needs, named⟩ | ⟨unstable, named⟩⟩ :=
      bucketBundle_label made.symm
    · refine ⟨fun _ => ⟨root, r, start, known, needs, isStem, named⟩, fun unstable => ?_⟩
      exact absurd (stable.symm.trans unstable) (by decide)
    · refine ⟨fun stable => absurd (unstable.symm.trans stable) (by decide), fun _ => ?_⟩
      exact Bundle.ends_of_hashedName named
  | loaded fileType consumers =>
    have hashed : b.needsStableName = false ∧ b.Ends b.name := by
      rcases mem_plannedBundles_loaded.1 listed with ⟨_, _, _, _, made⟩ | ⟨_, _, _, _, _, made⟩
      · obtain ⟨_, _, unstable, named⟩ := sharedBundle_label made.symm
        exact ⟨unstable, Bundle.ends_of_sharedName named⟩
      · obtain ⟨_, _, unstable, named⟩ := manualBundle_label made.symm
        exact ⟨unstable, Bundle.ends_of_hashedName named⟩
    exact ⟨fun stable => absurd (hashed.1.symm.trans stable) (by decide), fun _ => hashed.2⟩

end Plan

/-- Output files with one name, where bundling into an empty graph succeeds. Bundles whose ids
differ in their first digits have different names, whatever their targets are, with two exceptions:
both have stable names, which are the same text for roots with the same stem and type; or the part
of one name that is not made from an id spells the digits and the extension of the other bundle.
Both are told from the first bundles to be written with these ids, which have the same names. -/
theorem equal_names_stable_or_spelled (config : Config) (g : AssetGraph)
    (success : (Bundler.bundle config g .empty).2.result = .ok ()) :
    ∃ build, (Bundler.build config g).result = .ok build ∧
      ∀ b ∈ (Bundler.bundle config g .empty).1.bundles,
        ∀ c ∈ (Bundler.bundle config g .empty).1.bundles,
          BundleName.nameHash b.id ≠ BundleName.nameHash c.id → b.name = c.name →
          ∃ first second, Bundler.firstBundle? config build b.id = some first ∧
            Bundler.firstBundle? config build c.id = some second ∧ first.name = b.name ∧
            second.name = c.name ∧
            (((∃ p ∈ build.plans, p.NamesStably (.ofGraph g) config first) ∧
                ∃ p ∈ build.plans, p.NamesStably (.ofGraph g) config second) ∨
              (second.needsStableName = false ∧ second.Ends first.freeEnd) ∨
              (first.needsStableName = false ∧ first.Ends second.freeEnd)) := by
  obtain ⟨build, built, _⟩ := Bundler.bundle_ok_iff.1 success
  refine ⟨build, built, ?_⟩
  intro b isLeft c isRight differ same
  obtain ⟨first, isFirst, firstContents, firstLabel⟩ := Bundler.exists_first success built isLeft
  obtain ⟨second, isSecond, secondContents, secondLabel⟩ :=
    Bundler.exists_first success built isRight
  refine ⟨first, second, isFirst, isSecond, firstLabel.name.symm, secondLabel.name.symm, ?_⟩
  obtain ⟨_, p, isPlan, _, planned⟩ := Bundler.firstBundle?_eq_some isFirst
  obtain ⟨_, q, isOther, _, otherPlanned⟩ := Bundler.firstBundle?_eq_some isSecond
  rw [(Bundler.plans_of_build built).1] at planned otherPlanned
  obtain ⟨stable, hashed⟩ := Plan.name_of_planned planned
  obtain ⟨otherStable, otherHashed⟩ := Plan.name_of_planned otherPlanned
  rw [firstContents.id, secondContents.id] at differ
  rw [firstLabel.name, secondLabel.name] at same
  rcases Bundle.stable_or_ends (Plan.isDigest_of_planned planned)
    (Plan.isDigest_of_planned otherPlanned) differ same hashed otherHashed with
    ⟨left, right⟩ | spelled
  · exact .inl ⟨⟨p, isPlan, stable left⟩, q, isOther, otherStable right⟩
  · exact .inr spelled

/-- Two entries in different directories that have one file name. -/
def twoIndexes : AssetGraph :=
  { nodes := [.root,
      .dependency { id := "entry of app", specifier := "app/index", isEntry := true,
                    needsStableName := true },
      .asset { id := "app", filePath := ⟨"/app/index.js"⟩ },
      .dependency { id := "entry of admin", specifier := "admin/index", isEntry := true,
                    needsStableName := true },
      .asset { id := "admin", filePath := ⟨"/admin/index.js"⟩ }]
    edges := [(0, 1), (1, 2), (0, 3), (3, 4)] }

theorem twoIndexes_facts : (Bundler.bundle {} twoIndexes .empty).2.result = .ok () ∧
    ∃ b ∈ (Bundler.bundle {} twoIndexes .empty).1.bundles,
      ∃ c ∈ (Bundler.bundle {} twoIndexes .empty).1.bundles,
        BundleName.nameHash b.id ≠ BundleName.nameHash c.id ∧ b.isInline = false ∧
        c.isInline = false ∧ b.target.distDir = c.target.distDir ∧ b.name = "index.js" ∧
        c.name = "index.js" ∧
        (Bundler.build {} twoIndexes).result.map (fun build => [b, c].map fun bundle =>
          (Bundler.firstBundle? {} build bundle.id).map Bundle.needsStableName) =
            .ok [some true, some true] := by
  decide +kernel

/-- Both bundles go to `index.js`, although no two ids have the same first digits. -/
theorem twoIndexes_overwrite : (Bundler.bundle {} twoIndexes .empty).2.result = .ok () ∧
    (∀ b ∈ (Bundler.bundle {} twoIndexes .empty).1.bundles,
      ∀ c ∈ (Bundler.bundle {} twoIndexes .empty).1.bundles, b.id ≠ c.id →
        BundleName.nameHash b.id ≠ BundleName.nameHash c.id) ∧
    ∃ b ∈ (Bundler.bundle {} twoIndexes .empty).1.bundles,
      ∃ c ∈ (Bundler.bundle {} twoIndexes .empty).1.bundles, b.id ≠ c.id ∧ b.isInline = false ∧
        c.isInline = false ∧ b.target.distDir = c.target.distDir ∧ b.name = c.name := by
  obtain ⟨success, b, isLeft, c, isRight, differ, left, right, sameDir, leftName, rightName, _⟩ :=
    twoIndexes_facts
  refine ⟨success, by decide +kernel, b, isLeft, c, isRight, ?_, left, right, sameDir,
    leftName.trans rightName.symm⟩
  intro same
  exact differ (congrArg BundleName.nameHash same)

/-- The first of the exceptions is the one of these two names. -/
theorem twoIndexes_stable : (Bundler.bundle {} twoIndexes .empty).2.result = .ok () ∧
    ∃ build, (Bundler.build {} twoIndexes).result = .ok build ∧
      ∃ b ∈ (Bundler.bundle {} twoIndexes .empty).1.bundles,
      ∃ c ∈ (Bundler.bundle {} twoIndexes .empty).1.bundles, ∃ first second,
        BundleName.nameHash b.id ≠ BundleName.nameHash c.id ∧ b.name = c.name ∧
        Bundler.firstBundle? {} build b.id = some first ∧
        Bundler.firstBundle? {} build c.id = some second ∧
        (∃ p ∈ build.plans, p.NamesStably (.ofGraph twoIndexes) {} first) ∧
        ∃ p ∈ build.plans, p.NamesStably (.ofGraph twoIndexes) {} second := by
  obtain ⟨success, b, isLeft, c, isRight, differ, _, _, _, leftName, rightName, stable⟩ :=
    twoIndexes_facts
  obtain ⟨build, built, each⟩ := equal_names_stable_or_spelled {} twoIndexes success
  have same := leftName.trans rightName.symm
  obtain ⟨first, second, isFirst, isSecond, _, _, clash⟩ := each b isLeft c isRight differ same
  rw [built] at stable
  simp only [Except.map, List.map_cons, List.map_nil, isFirst, isSecond, Option.map_some,
    Except.ok.injEq, List.cons.injEq, Option.some.injEq, and_true] at stable
  obtain ⟨firstStable, secondStable⟩ := stable
  refine ⟨success, build, built, b, isLeft, c, isRight, first, second, differ, same, isFirst,
    isSecond, ?_⟩
  simpa [firstStable, secondStable] using clash

end CodeSplit
