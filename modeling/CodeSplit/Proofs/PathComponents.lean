import CodeSplit.Path
import Mathlib.Data.List.Induction
import Mathlib.Tactic.SplitIfs
import Mathlib.Tactic.Tauto

/-!
The components of a path, segment by segment. A text is cut at its separators, joining paths joins
their segments, and a path that is made of the root directory and further components has exactly
these components.
-/
namespace CodeSplit.Path

variable {p : Path} {c : Component}

theorem segments_ne_nil (cs : List Char) : segments cs ≠ [] := by
  cases cs with
  | nil => simp [segments]
  | cons c cs =>
    rw [segments]
    split
    · simp
    · split <;> simp

theorem segments_cons {c : Char} {cs piece : List Char} {pieces : List (List Char)}
    (cut : segments cs = piece :: pieces) : segments (c :: cs) =
      if c = '/' then [] :: piece :: pieces else (c :: piece) :: pieces := by
  rw [segments, cut]

theorem segments_append_separator (xs ys : List Char) :
    segments (xs ++ '/' :: ys) = segments xs ++ segments ys := by
  induction xs with
  | nil =>
    obtain ⟨piece, pieces, cut⟩ := List.exists_cons_of_ne_nil (segments_ne_nil ys)
    rw [List.nil_append, segments_cons cut, if_pos rfl, cut]
    rfl
  | cons x xs ih =>
    obtain ⟨piece, pieces, cut⟩ := List.exists_cons_of_ne_nil (segments_ne_nil xs)
    rw [cut, List.cons_append] at ih
    rw [List.cons_append, segments_cons ih, segments_cons cut]
    split_ifs <;> rfl

theorem segments_of_not_mem {cs : List Char} (whole : '/' ∉ cs) : segments cs = [cs] := by
  induction cs with
  | nil => rfl
  | cons c cs ih =>
    rw [List.mem_cons, not_or] at whole
    rw [segments_cons (ih whole.2), if_neg (Ne.symm whole.1)]

/-- Segments have no separators and are made of characters of the text. -/
theorem of_mem_segments {cs segment : List Char} (member : segment ∈ segments cs) {c : Char}
    (inside : c ∈ segment) : c ≠ '/' ∧ c ∈ cs := by
  induction cs generalizing segment with
  | nil =>
    rw [segments, List.mem_singleton] at member
    simp [member] at inside
  | cons d cs ih =>
    obtain ⟨piece, pieces, cut⟩ := List.exists_cons_of_ne_nil (segments_ne_nil cs)
    rw [cut] at ih
    rw [segments_cons cut] at member
    split_ifs at member with separator
    · rcases List.mem_cons.1 member with rfl | member
      · cases inside
      · exact (ih member inside).imp_right (List.mem_cons_of_mem _)
    · rcases List.mem_cons.1 member with rfl | member
      · rcases List.mem_cons.1 inside with rfl | inside
        · exact ⟨separator, List.mem_cons_self⟩
        · exact (ih List.mem_cons_self inside).imp_right (List.mem_cons_of_mem _)
      · exact (ih (List.mem_cons_of_mem _ member) inside).imp_right (List.mem_cons_of_mem _)

theorem exists_segment {cs : List Char} {c : Char} (inside : c ∈ cs) (other : c ≠ '/') :
    ∃ segment ∈ segments cs, c ∈ segment := by
  induction cs with
  | nil => cases inside
  | cons d cs ih =>
    obtain ⟨piece, pieces, cut⟩ := List.exists_cons_of_ne_nil (segments_ne_nil cs)
    rw [segments_cons cut]
    rw [cut] at ih
    rcases List.mem_cons.1 inside with rfl | inside
    · rw [if_neg other]
      exact ⟨_, List.mem_cons_self, List.mem_cons_self⟩
    · obtain ⟨segment, member, within⟩ := ih inside
      split_ifs
      · exact ⟨segment, List.mem_cons_of_mem _ member, within⟩
      · rcases List.mem_cons.1 member with rfl | member
        · exact ⟨_, List.mem_cons_self, List.mem_cons_of_mem _ within⟩
        · exact ⟨segment, List.mem_cons_of_mem _ member, within⟩

/-- A component that stands for one segment, whatever comes before it: a name or `..`. -/
def Component.IsSegment (c : Component) : Prop :=
  '/' ∉ c.text.toList ∧ innerComponent? c.text.toList = some c

theorem Component.IsSegment.cases (segment : c.IsSegment) :
    c = .parent ∨ ∃ name, c = .normal name := by
  cases c with
  | root => exact absurd segment.1 (by decide)
  | current => exact absurd segment.2 (by decide)
  | parent => exact .inl rfl
  | normal name => exact .inr ⟨name, rfl⟩

theorem Component.isSegment_parent : Component.parent.IsSegment := by
  constructor <;> decide

theorem text_of_innerComponent? {segment : List Char} (read : innerComponent? segment = some c) :
    c.text.toList = segment := by
  simp only [innerComponent?] at read
  split_ifs at read with skipped up
  · cases read
    exact up.symm
  · cases read
    exact String.toList_ofList

/-- The components of a path, apart from the root directory or `.` that it starts with. -/
def inner (p : Path) : List Component := (segments p.text.toList).filterMap innerComponent?

theorem isSegment_of_mem_inner (member : c ∈ p.inner) : c.IsSegment := by
  obtain ⟨segment, cut, read⟩ := List.mem_filterMap.1 member
  rw [Component.IsSegment, text_of_innerComponent? read]
  exact ⟨fun inside => (of_mem_segments cut inside).1 rfl, read⟩

theorem mem_text_of_mem_inner (member : c ∈ p.inner) {character : Char}
    (inside : character ∈ c.text.toList) : character ∈ p.text.toList := by
  obtain ⟨segment, cut, read⟩ := List.mem_filterMap.1 member
  rw [text_of_innerComponent? read] at inside
  exact (of_mem_segments cut inside).2

/-- Only separators and dots can be missing from the components. -/
theorem exists_mem_inner {character : Char} (inside : character ∈ p.text.toList)
    (noSeparator : character ≠ '/') (noDot : character ≠ '.') :
    ∃ c ∈ p.inner, character ∈ c.text.toList := by
  obtain ⟨segment, cut, within⟩ := exists_segment inside noSeparator
  have read : innerComponent? segment = some (.normal (String.ofList segment)) := by
    rw [innerComponent?, if_neg, if_neg]
    · rintro rfl
      simp [noDot] at within
    · rintro (rfl | rfl) <;> simp [noDot] at within
  exact ⟨_, List.mem_filterMap.2 ⟨segment, cut, read⟩, by simpa [Component.text] using within⟩

theorem exists_toList_eq (absolute : p.isAbsolute = true) :
    ∃ rest, p.text.toList = '/' :: rest := by
  simpa [isAbsolute, List.head?_eq_some_iff] using absolute

theorem components_of_absolute (absolute : p.isAbsolute = true) :
    p.components = .root :: p.inner := by
  obtain ⟨rest, text⟩ := exists_toList_eq absolute
  have cut : segments p.text.toList = [] :: segments rest := by
    simpa [text, segments] using segments_append_separator [] rest
  rw [components, inner, cut]
  simp [absolute, innerComponent?]

theorem components_of_relative (relative : p.isAbsolute = false) :
    p.components = p.inner ∨ p.components = .current :: p.inner := by
  obtain ⟨first, rest, cut⟩ := List.exists_cons_of_ne_nil (segments_ne_nil p.text.toList)
  simp only [components, inner, cut, relative, Bool.false_eq_true, if_false, List.filterMap_cons]
  split_ifs with dot
  · right
    rw [dot]
    rfl
  · left
    cases innerComponent? first <;> rfl

theorem root_not_mem_inner (p : Path) : .root ∉ p.inner := by
  intro member
  rcases (isSegment_of_mem_inner member).cases with other | ⟨name, other⟩ <;> cases other

theorem root_not_mem_of_relative (relative : p.isAbsolute = false) : .root ∉ p.components := by
  have inside := p.root_not_mem_inner
  rcases components_of_relative relative with same | same <;> simp [same, inside]

theorem mem_components_of_mem_inner (member : c ∈ p.inner) : c ∈ p.components := by
  cases relative : p.isAbsolute with
  | true => simp [components_of_absolute relative, member]
  | false => rcases components_of_relative relative with same | same <;> simp [same, member]

theorem inner_eq_nil (empty : p.text = "") : p.inner = [] := by
  rw [inner, empty]
  rfl

theorem join_of_absolute (base : Path) (absolute : p.isAbsolute = true) : base.join p = p :=
  if_pos absolute

/-- Joining puts at most a separator between two texts. -/
theorem join_of_relative (base : Path) (relative : p.isAbsolute = false) :
    (base.join p).text.toList = base.text.toList ++ p.text.toList ∧
        (base.text = "" ∨ base.text.toList.getLast? = some '/') ∨
      (base.join p).text.toList = base.text.toList ++ '/' :: p.text.toList := by
  rw [join, if_neg (by simp [relative])]
  split_ifs with closed
  · exact .inl ⟨String.toList_append, closed⟩
  · right
    simp [String.toList_append]

theorem inner_join (base : Path) (relative : p.isAbsolute = false) :
    (base.join p).inner = base.inner ++ p.inner := by
  rcases join_of_relative base relative with ⟨joined, empty | closed⟩ | joined
  · rw [inner_eq_nil empty, inner, joined, empty]
    rfl
  · -- The separator at the end of the base is the one between the two.
    obtain ⟨front, text⟩ := List.getLast?_eq_some_iff.1 closed
    rw [text, List.append_assoc, List.singleton_append] at joined
    rw [inner, joined, segments_append_separator, inner, text, segments_append_separator]
    simp [segments, innerComponent?, inner]
  · rw [inner, joined, segments_append_separator, List.filterMap_append, inner, inner]

theorem isAbsolute_join {base : Path} (absolute : base.isAbsolute = true) (p : Path) :
    (base.join p).isAbsolute = true := by
  cases relative : p.isAbsolute with
  | true => rw [join_of_absolute base relative, relative]
  | false =>
    obtain ⟨rest, text⟩ := exists_toList_eq absolute
    rcases join_of_relative base relative with ⟨joined, _⟩ | joined <;>
      simp [isAbsolute, joined, text]

theorem components_join {base : Path} (absolute : base.isAbsolute = true)
    (relative : p.isAbsolute = false) : (base.join p).components = base.components ++ p.inner := by
  rw [components_of_absolute (isAbsolute_join absolute p), inner_join base relative,
    components_of_absolute absolute, List.cons_append]

theorem mem_text_join {base : Path} {character : Char}
    (inside : character ∈ (base.join p).text.toList) :
    character = '/' ∨ character ∈ base.text.toList ∨ character ∈ p.text.toList := by
  cases relative : p.isAbsolute with
  | true =>
    rw [join_of_absolute base relative] at inside
    exact .inr (.inr inside)
  | false =>
    rcases join_of_relative base relative with ⟨joined, _⟩ | joined
    · rw [joined, List.mem_append] at inside
      exact .inr inside
    · simp only [joined, List.mem_append, List.mem_cons] at inside
      tauto

theorem Component.IsSegment.isAbsolute_eq_false (segment : c.IsSegment) :
    (Path.mk c.text).isAbsolute = false := by
  simp only [isAbsolute, decide_eq_false_iff_not]
  intro first
  exact segment.1 (List.mem_of_mem_head? first)

theorem inner_of_isSegment (segment : c.IsSegment) : (Path.mk c.text).inner = [c] := by
  simp [inner, segments_of_not_mem segment.1, segment.2]

/-- A path from the root directory. -/
def fromRoot (cs : List Component) : Path := ofComponents (.root :: cs)

theorem fromRoot_append (cs : List Component) (c : Component) :
    fromRoot (cs ++ [c]) = (fromRoot cs).join ⟨c.text⟩ := by
  simp [fromRoot, ofComponents]

theorem isAbsolute_fromRoot (cs : List Component) : (fromRoot cs).isAbsolute = true := by
  induction cs using List.reverseRecOn with
  | nil => rfl
  | append_singleton cs c ih =>
    rw [fromRoot_append]
    exact isAbsolute_join ih _

theorem components_fromRoot {cs : List Component} (segments : ∀ c ∈ cs, c.IsSegment) :
    (fromRoot cs).components = .root :: cs := by
  rw [components_of_absolute (isAbsolute_fromRoot cs)]
  congr 1
  induction cs using List.reverseRecOn with
  | nil => rfl
  | append_singleton cs c ih =>
    have last : c.IsSegment := segments c (by simp)
    rw [fromRoot_append, inner_join _ last.isAbsolute_eq_false, inner_of_isSegment last,
      ih fun c member => segments c (by simp [member])]

theorem mem_text_fromRoot {cs : List Component} {character : Char}
    (inside : character ∈ (fromRoot cs).text.toList) :
    character = '/' ∨ ∃ c ∈ cs, character ∈ c.text.toList := by
  induction cs using List.reverseRecOn with
  | nil => exact .inl (List.mem_singleton.1 inside)
  | append_singleton cs c ih =>
    rw [fromRoot_append] at inside
    rcases mem_text_join inside with separator | inside | inside
    · exact .inl separator
    · rcases ih inside with separator | ⟨d, member, inside⟩
      · exact .inl separator
      · exact .inr ⟨d, by simp [member], inside⟩
    · exact .inr ⟨c, by simp, inside⟩

theorem text_subset_fromRoot {cs : List Component} (segments : ∀ c ∈ cs, c.IsSegment)
    (member : c ∈ cs) {character : Char} (inside : character ∈ c.text.toList) :
    character ∈ (fromRoot cs).text.toList := by
  induction cs using List.reverseRecOn with
  | nil => cases member
  | append_singleton cs d ih =>
    rw [fromRoot_append]
    have last : d.IsSegment := segments d (by simp)
    have both : character ∈ (fromRoot cs).text.toList ∨ character ∈ d.text.toList := by
      rcases List.mem_append.1 member with member | member
      · exact .inl (ih (fun c member => segments c (by simp [member])) member)
      · rw [List.mem_singleton] at member
        exact .inr (member ▸ inside)
    rcases join_of_relative (fromRoot cs) last.isAbsolute_eq_false with ⟨joined, _⟩ | joined <;>
      rw [joined] <;> simp only [List.mem_append, List.mem_cons] <;> tauto

end CodeSplit.Path
