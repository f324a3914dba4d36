import CodeSplit.Proofs.GlobRuns
import CodeSplit.Proofs.OptionOverlays
import CodeSplit.Proofs.PathResolution
import CodeSplit.Proofs.Utf8

/-!
Manual bundles that name a file. The pattern of such a bundle is the whole path of the file, the
project root included, and the characters of the root are read as part of the pattern. Where none of
them has a meaning there, the bundle matches that file and no other. `?` lets other files in, while
classes, braces and escapes keep the named file out.
-/
namespace CodeSplit

open Digest (utf8)

namespace Glob

/-- The characters with a meaning of their own. The others have one only inside of classes or
braces, or at the start of a pattern. -/
def active : List Char := ['*', '?', '[', '\x7b', '\\']

def isLiteral (text : String) : Bool := text.toList.all fun c => decide (c ∉ active)

theorem isLiteral_iff {text : String} : isLiteral text = true ↔ ∀ c ∈ text.toList, c ∉ active := by
  simp [isLiteral]

theorem ne_of_mem_active {c : Char} (isActive : c ∈ active) : c ≠ '/' ∧ c ≠ '.' := by
  constructor <;> rintro rfl <;> exact absurd isActive (by decide)

theorem code_mem_iff {text : String} {c : Char} (ascii : c.toNat < 128) :
    code c ∈ (utf8 text).toArray ↔ c ∈ text.toList := by
  rw [List.mem_toArray, code, Digest.ofNat_mem_utf8_iff ascii]

variable {glob path : String} {rest : List Char}

/-- A pattern from the root directory has no negation in front. -/
theorem isMatch_iff_run (rooted : glob.toList = '/' :: rest) :
    isMatch glob path = true ↔
      run (utf8 glob).toArray (utf8 path).toArray
        (stateCount (utf8 glob).toArray (utf8 path).toArray) (together 0) = .matched := by
  have none : negations (utf8 glob) = 0 := by
    rw [Digest.utf8_eq_flatMap, rooted]
    rfl
  have start : ({ cursor := { glob := 0 } } : State) = together 0 := rfl
  simp only [isMatch, none, start]
  generalize run _ _ _ _ = verdict
  cases verdict <;> simp

theorem isMatch_iff_fits (rooted : glob.toList = '/' :: rest)
    (narrow : ∀ c ∈ glob.toList, c ∈ active → c = '?') :
    isMatch glob path = true ↔ List.Forall₂ Fits (utf8 glob) (utf8 path) := by
  have absent {c : Char} (ascii : c.toNat < 128) (other : c ≠ '?') (isActive : c ∈ active) :
      code c ∉ (utf8 glob).toArray := by
    rw [code_mem_iff ascii]
    exact fun member => other (narrow c member isActive)
  have narrowBytes (b : UInt8) (member : b ∈ (utf8 glob).toArray) :
      b ≠ code '*' ∧ ¬ Wide b := by
    constructor
    · rintro rfl
      exact absent (by decide) (by decide) (by decide) member
    · rintro (rfl | rfl | rfl) <;> exact absent (by decide) (by decide) (by decide) member
  have enough : (utf8 glob).toArray.size <
      stateCount (utf8 glob).toArray (utf8 path).toArray + 0 := by
    rw [Nat.add_zero]
    exact size_lt_stateCount _ _
  rw [isMatch_iff_run rooted, run_together narrowBytes (Nat.zero_le _) enough, List.drop_zero,
    List.drop_zero]

theorem eq_of_fits {xs ys : List UInt8} (fits : List.Forall₂ Fits xs ys) (never : code '?' ∉ xs) :
    xs = ys := by
  induction fits with
  | nil => rfl
  | cons first _ ih =>
    rw [List.mem_cons, not_or] at never
    rcases first with rfl | ⟨any, _⟩
    · rw [ih never.2]
    · exact absurd any.symm never.1

theorem isMatch_literal (rooted : glob.toList = '/' :: rest) (literal : isLiteral glob = true) :
    isMatch glob path = true ↔ glob = path := by
  rw [isLiteral_iff] at literal
  have never : code '?' ∉ utf8 glob := by
    rw [code, Digest.ofNat_mem_utf8_iff (by decide)]
    exact fun member => literal '?' member (by decide)
  rw [isMatch_iff_fits rooted fun c member isActive => absurd isActive (literal c member)]
  constructor
  · intro fits
    exact Digest.utf8_injective (eq_of_fits fits never)
  · rintro rfl
    exact List.forall₂_same.2 fun b _ => .inl rfl

/-- A path that is read as a pattern and has a class, braces or an escape in it does not match
itself. -/
theorem isMatch_self_eq_false (rooted : glob.toList = '/' :: rest) (plain : '*' ∉ glob.toList)
    {c : Char} (member : c ∈ glob.toList) (isActive : c ∈ active) (wide : c ≠ '?') :
    isMatch glob glob = false := by
  have plainBytes (b : UInt8) (member : b ∈ (utf8 glob).toArray) : b ≠ code '*' := by
    rintro rfl
    exact plain ((code_mem_iff (by decide)).1 member)
  have wideByte : Wide (code c) ∧ c.toNat < 128 := by
    simp only [active, List.mem_cons, List.not_mem_nil, or_false] at isActive
    rcases isActive with rfl | rfl | rfl | rfl | rfl
    · exact absurd member plain
    · exact absurd rfl wide
    · exact ⟨.inl rfl, by decide⟩
    · exact ⟨.inr (.inl rfl), by decide⟩
    · exact ⟨.inr (.inr rfl), by decide⟩
  rw [← Bool.not_eq_true, isMatch_iff_run rooted]
  obtain ⟨i, inside, read⟩ := Array.getElem_of_mem ((code_mem_iff wideByte.2).2 member)
  exact run_together_ne_matched plainBytes (Nat.le_refl _) (Nat.zero_le i)
    (Array.getElem?_eq_some_iff.2 ⟨inside, read⟩) wideByte.1

end Glob

namespace Path

/-- `?` replaced by a letter. -/
def fill (c : Char) : Char := if c = '?' then 'x' else c

theorem fill_eq_iff {c d : Char} (separatorOrDot : d = '/' ∨ d = '.') : fill c = d ↔ c = d := by
  rw [fill]
  split_ifs with mark
  · rcases separatorOrDot with rfl | rfl <;> simp [mark]
  · rfl

theorem map_fill_eq_iff {cs ds : List Char} (dots : ∀ d ∈ ds, d = '.') :
    cs.map fill = ds ↔ cs = ds := by
  induction ds generalizing cs with
  | nil => exact List.map_eq_nil_iff
  | cons d ds ih =>
    cases cs with
    | nil => simp
    | cons c cs =>
      rw [List.map_cons, List.cons_eq_cons, List.cons_eq_cons,
        fill_eq_iff (.inr (dots d List.mem_cons_self)),
        ih fun d member => dots d (List.mem_cons_of_mem _ member)]

theorem eq_of_toList_eq {p q : Path} (same : p.text.toList = q.text.toList) : p = q :=
  congrArg Path.mk (String.toList_inj.1 same)

def filled (p : Path) : Path := ⟨String.ofList (p.text.toList.map fill)⟩

def Component.filled : Component → Component
  | .normal name => .normal (String.ofList (name.toList.map fill))
  | c => c

theorem Component.text_filled (c : Component) : c.filled.text.toList = c.text.toList.map fill := by
  cases c with
  | normal name => exact String.toList_ofList
  | root => decide
  | current => decide
  | parent => decide

theorem text_filled (p : Path) : p.filled.text.toList = p.text.toList.map fill :=
  String.toList_ofList

theorem mark_not_mem_filled (p : Path) : '?' ∉ p.filled.text.toList := by
  rw [text_filled, List.mem_map]
  rintro ⟨c, _, same⟩
  rw [fill] at same
  split_ifs at same with mark
  · exact absurd same (by decide)
  · exact mark same

theorem isAbsolute_filled (p : Path) : p.filled.isAbsolute = p.isAbsolute := by
  rw [isAbsolute, isAbsolute, text_filled, List.head?_map, decide_eq_decide]
  cases p.text.toList.head? with
  | none => rfl
  | some c => simp [fill_eq_iff]

theorem closed_filled (p : Path) :
    (p.filled.text = "" ∨ p.filled.text.toList.getLast? = some '/') ↔
      (p.text = "" ∨ p.text.toList.getLast? = some '/') := by
  rw [← String.toList_eq_nil_iff, ← String.toList_eq_nil_iff, text_filled, List.getLast?_map,
    List.map_eq_nil_iff]
  cases p.text.toList.getLast? with
  | none => rfl
  | some c => simp [fill_eq_iff]

theorem filled_join (p q : Path) : (p.join q).filled = p.filled.join q.filled := by
  simp only [join, isAbsolute_filled, closed_filled]
  apply eq_of_toList_eq
  split_ifs
  · rfl
  · simp [text_filled, String.toList_append]
  · have separator : fill '/' = '/' := by decide
    simp [text_filled, String.toList_append, separator]

theorem fromRoot_filled (cs : List Component) :
    (fromRoot cs).filled = fromRoot (cs.map Component.filled) := by
  induction cs using List.reverseRecOn with
  | nil => decide
  | append_singleton cs c ih =>
    rw [fromRoot_append, filled_join, ih, List.map_append, List.map_singleton, fromRoot_append]
    congr 1
    apply eq_of_toList_eq
    rw [text_filled, Component.text_filled]

theorem Component.IsSegment.filled {c : Component} (segment : c.IsSegment) :
    c.filled.IsSegment := by
  rcases segment.cases with rfl | ⟨name, rfl⟩
  · exact Component.isSegment_parent
  · obtain ⟨whole, read⟩ := segment
    rw [Component.IsSegment, Component.text_filled]
    rw [Component.text] at *
    constructor
    · rw [List.mem_map]
      rintro ⟨c, member, separator⟩
      exact whole ((fill_eq_iff (.inl rfl)).1 separator ▸ member)
    · rw [innerComponent?] at read ⊢
      split_ifs at read with skipped up
      · cases read
      · rw [if_neg, if_neg]
        · rfl
        · rwa [map_fill_eq_iff (by simp)]
        · rwa [map_fill_eq_iff (by simp), map_fill_eq_iff (by simp)]

theorem fits_filled (text : List Char) :
    List.Forall₂ Glob.Fits (text.flatMap String.utf8EncodeChar)
      ((text.map fill).flatMap String.utf8EncodeChar) := by
  induction text with
  | nil => exact .nil
  | cons c text ih =>
    rw [List.map_cons, List.flatMap_cons, List.flatMap_cons]
    refine List.rel_append ?_ ih
    rw [fill]
    split_ifs with mark
    · rw [mark]
      exact .cons (.inr ⟨rfl, by decide⟩) .nil
    · exact List.forall₂_same.2 fun b _ => .inl rfl

variable {root p : Path}

theorem isSegment_of_mem_inners (c : Component) (member : c ∈ root.inner ++ p.inner) :
    c.IsSegment :=
  (List.mem_append.1 member).elim isSegment_of_mem_inner isSegment_of_mem_inner

/-- The components of a file below a root without `..`. -/
theorem resolveFrom_join (absolute : root.isAbsolute = true) (level : .parent ∉ root.components)
    (relative : p.isAbsolute = false) (plain : .parent ∉ p.components) :
    root.resolveFrom p = fromRoot (root.inner ++ p.inner) ∧
      root.resolveFrom (root.join p) = fromRoot (root.inner ++ p.inner) ∧
      (root.join p).components = .root :: (root.inner ++ p.inner) := by
  have joined := components_join absolute relative
  have levelToo : .parent ∉ (root.join p).components := by
    rw [joined, List.mem_append, not_or]
    exact ⟨level, mt mem_components_of_mem_inner plain⟩
  have located : (root.join p).location.map .normal = root.inner ++ p.inner := by
    rw [location_of_level levelToo, inner_join root relative]
  refine ⟨?_, ?_, ?_⟩
  · rw [resolveFrom_of_level absolute level, located]
  · rw [resolveFrom_of_level absolute level, join_of_absolute root (isAbsolute_join absolute p),
      located]
  · rw [joined, components_of_absolute absolute, List.cons_append]

/-- A path of names resolves to itself, and so does the filled one. -/
theorem resolveFrom_filled (absolute : root.isAbsolute = true) (level : .parent ∉ root.components)
    {cs : List Component} (segments : ∀ c ∈ cs, c.IsSegment) (names : .parent ∉ cs) :
    root.resolveFrom (fromRoot cs).filled = (fromRoot cs).filled := by
  have segmentsToo : ∀ c ∈ cs.map Component.filled, c.IsSegment := by
    intro c member
    obtain ⟨d, present, rfl⟩ := List.mem_map.1 member
    exact (segments d present).filled
  have namesToo : .parent ∉ cs.map Component.filled := by
    intro member
    obtain ⟨c, member, same⟩ := List.mem_map.1 member
    cases c with
    | parent => exact names member
    | root => cases same
    | current => cases same
    | normal name => cases same
  have components := components_fromRoot segmentsToo
  have located := location_of_level (p := fromRoot (cs.map Component.filled)) (by
    simp [components, namesToo])
  rw [components_of_absolute (isAbsolute_fromRoot _)] at components
  rw [fromRoot_filled, resolveFrom_of_level absolute level,
    join_of_absolute root (isAbsolute_fromRoot _), located, (List.cons.inj components).2]

end Path

namespace ManualRule

open CodeSplit.Path (fromRoot)

variable {root p : Path} {d : Declaration}

/-- The rule matches the file at `p` below the root and no other. -/
structure Names (rule : ManualRule) (root p : Path) : Prop where
  own : rule.matchesPath root (root.join p) = true
  only : ∀ file, rule.matchesPath root file = true →
    (root.resolveFrom file).same (root.join p) = true

theorem matchesPath_ofDeclaration (assets : d.assets = [p.text]) (file : Path) :
    (ofDeclaration root d).matchesPath root file =
      Glob.isMatch (root.resolveFrom p).text (root.resolveFrom file).text := by
  simp [matchesPath, ofDeclaration, assets]

section

variable (absolute : root.isAbsolute = true) (level : .parent ∉ root.components)
  (relative : p.isAbsolute = false) (plain : .parent ∉ p.components)

include absolute level relative plain

/-- A file resolves to the named one exactly if its path comes out as the pattern. -/
theorem same_join_iff (file : Path) :
    (root.resolveFrom file).same (root.join p) = true ↔
      (root.resolveFrom p).text = (root.resolveFrom file).text := by
  obtain ⟨named, _, joined⟩ := Path.resolveFrom_join absolute level relative plain
  have components := Path.components_resolveFrom absolute file
  rw [Path.same, decide_eq_true_eq, joined]
  constructor
  · intro same
    rw [components] at same
    rw [named, Path.resolveFrom_eq absolute file, (List.cons.inj same).2]
  · intro same
    have equal : root.resolveFrom file = root.resolveFrom p := congrArg Path.mk same.symm
    rw [equal, named, Path.components_fromRoot Path.isSegment_of_mem_inners]

theorem mem_pattern_iff {c : Char} (other : c ≠ '/') (noDot : c ≠ '.') :
    c ∈ (root.resolveFrom p).text.toList ↔ c ∈ root.text.toList ∨ c ∈ p.text.toList := by
  obtain ⟨named, _, _⟩ := Path.resolveFrom_join absolute level relative plain
  rw [named]
  constructor
  · intro member
    rcases Path.mem_text_fromRoot member with separator | ⟨component, member, inside⟩
    · exact absurd separator other
    · rw [List.mem_append] at member
      exact member.imp (Path.mem_text_of_mem_inner · inside) (Path.mem_text_of_mem_inner · inside)
  · intro member
    have below : ∃ component ∈ root.inner ++ p.inner, c ∈ component.text.toList := by
      rcases member with member | member
      · obtain ⟨component, present, inside⟩ := Path.exists_mem_inner member other noDot
        exact ⟨component, List.mem_append_left _ present, inside⟩
      · obtain ⟨component, present, inside⟩ := Path.exists_mem_inner member other noDot
        exact ⟨component, List.mem_append_right _ present, inside⟩
    obtain ⟨component, present, inside⟩ := below
    exact Path.text_subset_fromRoot Path.isSegment_of_mem_inners present inside

theorem names_of_literal (assets : d.assets = [p.text])
    (literalRoot : Glob.isLiteral root.text = true) (literal : Glob.isLiteral p.text = true) :
    (ofDeclaration root d).Names root p := by
  obtain ⟨named, joined, _⟩ := Path.resolveFrom_join absolute level relative plain
  obtain ⟨rest, rooted⟩ := Path.exists_toList_eq
    (p := root.resolveFrom p) (named ▸ Path.isAbsolute_fromRoot _)
  have literalPattern : Glob.isLiteral (root.resolveFrom p).text = true := by
    rw [Glob.isLiteral_iff] at *
    intro c member isActive
    obtain ⟨other, noDot⟩ := Glob.ne_of_mem_active isActive
    rcases (mem_pattern_iff absolute level relative plain other noDot).1 member with
      inRoot | inFile
    · exact literalRoot c inRoot isActive
    · exact literal c inFile isActive
  constructor
  · rw [matchesPath_ofDeclaration assets, joined, ← named]
    exact (Glob.isMatch_literal rooted literalPattern).2 rfl
  · intro file matched
    rw [matchesPath_ofDeclaration assets, Glob.isMatch_literal rooted literalPattern] at matched
    exact (same_join_iff absolute level relative plain file).2 matched

theorem literal_of_names (assets : d.assets = [p.text]) (literal : Glob.isLiteral p.text = true)
    (noStar : '*' ∉ root.text.toList) (names : (ofDeclaration root d).Names root p) :
    Glob.isLiteral root.text = true := by
  obtain ⟨named, joined, _⟩ := Path.resolveFrom_join absolute level relative plain
  obtain ⟨rest, rooted⟩ := Path.exists_toList_eq
    (p := root.resolveFrom p) (named ▸ Path.isAbsolute_fromRoot _)
  have inPattern {c : Char} (isActive : c ∈ Glob.active) :
      c ∈ (root.resolveFrom p).text.toList ↔ c ∈ root.text.toList := by
    obtain ⟨other, noDot⟩ := Glob.ne_of_mem_active isActive
    rw [mem_pattern_iff absolute level relative plain other noDot]
    exact or_iff_left fun member => Glob.isLiteral_iff.1 literal c member isActive
  -- The pattern matches itself, so nothing in it is wider than what it stands for.
  have narrow : ∀ c ∈ (root.resolveFrom p).text.toList, c ∈ Glob.active → c = '?' := by
    intro c member isActive
    by_contra wide
    have own := names.own
    rw [matchesPath_ofDeclaration assets, joined, ← named, Glob.isMatch_self_eq_false rooted
      (mt (inPattern (by decide)).1 noStar) member isActive wide] at own
    cases own
  rw [Glob.isLiteral_iff]
  intro c member isActive
  obtain rfl : c = '?' := narrow c ((inPattern isActive).2 member) isActive
  -- Any letter does in its place, and that is another file.
  have stays : root.resolveFrom (root.resolveFrom p).filled = (root.resolveFrom p).filled := by
    rw [named]
    refine Path.resolveFrom_filled absolute level Path.isSegment_of_mem_inners ?_
    rw [List.mem_append, not_or]
    exact ⟨mt Path.mem_components_of_mem_inner level, mt Path.mem_components_of_mem_inner plain⟩
  have matched : (ofDeclaration root d).matchesPath root (root.resolveFrom p).filled = true := by
    rw [matchesPath_ofDeclaration assets, stays, Glob.isMatch_iff_fits rooted narrow,
      Digest.utf8_eq_flatMap, Digest.utf8_eq_flatMap, Path.text_filled]
    exact Path.fits_filled _
  have same := (same_join_iff absolute level relative plain _).1 (names.only _ matched)
  rw [stays] at same
  apply Path.mark_not_mem_filled (root.resolveFrom p)
  rw [← same]
  exact (inPattern isActive).2 member

end

/-- However a declaration that names a file is laid over others, its rule names that file below
every root without active characters; and no root has such characters if that holds, `*` apart. -/
theorem declaration_names_its_file (s : Settings) (mode : BuildMode) (flags : FeatureFlags)
    (root p : Path) (n : Nat) (d : Declaration) (absolute : root.isAbsolute = true)
    (level : .parent ∉ root.components) (relative : p.isAbsolute = false)
    (plain : .parent ∉ p.components) (literal : Glob.isLiteral p.text = true)
    (declared : ((s.optionsIn mode).declared?.getD [])[n]? = some d)
    (assets : d.assets = [p.text]) :
    ∃ rule, (s.resolve mode root flags).1.manualRules[n]? = some rule ∧
      (Glob.isLiteral root.text = true → rule.Names root p) ∧
      ('*' ∉ root.text.toList → (rule.Names root p ↔ Glob.isLiteral root.text = true)) := by
  have literally := names_of_literal absolute level relative plain assets
  refine ⟨ofDeclaration root d, ?_, fun literalRoot => literally literalRoot literal, ?_⟩
  · rw [Settings.manualRules_resolve, Settings.rulesOf, List.getElem?_map, declared]
    rfl
  · intro noStar
    exact ⟨literal_of_names absolute level relative plain assets literal noStar,
      fun literalRoot => literally literalRoot literal⟩

/-- Declares a bundle of one file. -/
def oneFile : Settings where
  options := { manualSharedBundles := some [{ name := "vendor", assets := ["lib.js"] }] }

/-- Each of the active characters does harm: below the first two roots another file matches, below
the others the named one does not. -/
theorem oneFile_below_active_roots :
    List.Forall (fun root => ∃ rule, (oneFile.resolve .development root {}).1.manualRules = [rule] ∧
        ¬ rule.Names root ⟨"lib.js"⟩)
      [⟨"/a*"⟩, ⟨"/a?"⟩, ⟨"/a[b]"⟩, ⟨"/a\x7bb\x7d"⟩, ⟨"/a\\b"⟩] := by
  rw [List.forall_iff_forall_mem]
  intro root member
  refine ⟨_, rfl, fun names => ?_⟩
  simp only [List.mem_cons, List.not_mem_nil, or_false] at member
  rcases member with rfl | rfl | rfl | rfl | rfl
  · exact absurd (names.only ⟨"/ab/lib.js"⟩ (by decide +kernel)) (by decide +kernel)
  · exact absurd (names.only ⟨"/ab/lib.js"⟩ (by decide +kernel)) (by decide +kernel)
  · exact absurd names.own (by decide +kernel)
  · exact absurd names.own (by decide +kernel)
  · exact absurd names.own (by decide +kernel)

/-- Characters that mean something only inside of braces, classes or at the start do no harm. -/
theorem oneFile_below_quiet_root :
    ∃ rule, (oneFile.resolve .development ⟨"/!my, own]/a\x7d"⟩ {}).1.manualRules[0]? = some rule ∧
      rule.Names ⟨"/!my, own]/a\x7d"⟩ ⟨"lib.js"⟩ := by
  obtain ⟨rule, listed, names, _⟩ := declaration_names_its_file oneFile .development {}
    ⟨"/!my, own]/a\x7d"⟩ ⟨"lib.js"⟩ 0 { name := "vendor", assets := ["lib.js"] }
    (by decide +kernel) (by decide +kernel) (by decide +kernel) (by decide +kernel)
    (by decide +kernel) rfl rfl
  exact ⟨rule, listed, names (by decide +kernel)⟩

end ManualRule

end CodeSplit
