import CodeSplit.Proofs.Fingerprints
import CodeSplit.Proofs.PathComponents
import Mathlib.Data.List.Basic

/-!
What the fingerprint of a path tells. It has the chunks without what separates them, and one word
that their lengths are folded into. So a path is not told apart from its counterpart below the root
directory, nor from another division of the same text whose lengths fold to the same word. Paths
with at most two chunks have no such other division.
-/
namespace CodeSplit.Path

open Digest (utf8 wordBytes)

variable {p q : Path} {chunk : String}

/-- The lengths of texts, folded into a word. -/
def lengthWord (texts : List String) : UInt64 :=
  texts.foldl (fun bits text => rotateRight (bits + UInt64.ofNat text.utf8ByteSize) 2) 0

/-- Two paths have the same text once separators are dropped, and lengths that fold to the same
word. -/
structure Alike (p q : Path) : Prop where
  text : String.join p.chunks = String.join q.chunks
  lengths : lengthWord p.chunks = lengthWord q.chunks

theorem utf8_join (texts : List String) : utf8 (String.join texts) = texts.flatMap utf8 := by
  rw [Digest.utf8_eq_flatMap, String.toList_join, List.flatMap_assoc]
  exact congrArg (List.flatMap · texts) (funext fun text => (Digest.utf8_eq_flatMap text).symm)

theorem fingerprint_eq (p : Path) :
    p.fingerprint = utf8 (String.join p.chunks) ++ wordBytes (lengthWord p.chunks) := by
  rw [utf8_join]
  rfl

theorem fingerprint_eq_iff : p.fingerprint = q.fingerprint ↔ p.Alike q := by
  rw [fingerprint_eq, fingerprint_eq]
  constructor
  · intro same
    obtain ⟨texts, words⟩ := List.append_inj' same (by simp [Digest.length_wordBytes])
    exact ⟨Digest.utf8_injective texts, Digest.wordBytes_inj words⟩
  · intro alike
    rw [alike.text, alike.lengths]

theorem chunks_of_absolute (absolute : p.isAbsolute = true) :
    p.chunks = p.inner.map Component.text := by
  rw [chunks, components_of_absolute absolute, List.filterMap_cons, ← List.filterMap_eq_map]
  apply List.filterMap_congr
  intro c member
  rcases (isSegment_of_mem_inner member).cases with rfl | ⟨name, rfl⟩ <;> rfl

theorem chunks_of_relative (relative : p.isAbsolute = false) :
    p.chunks = p.components.map Component.text := by
  rw [chunks, ← List.filterMap_eq_map]
  apply List.filterMap_congr
  intro c member
  cases c with
  | root => exact absurd member (root_not_mem_of_relative relative)
  | current => rfl
  | parent => rfl
  | normal name => rfl

theorem inner_eq_filterMap_chunks (p : Path) :
    p.inner = p.chunks.filterMap fun chunk => innerComponent? chunk.toList := by
  have read : (p.inner.map Component.text).filterMap (fun chunk => innerComponent? chunk.toList) =
      p.inner := by
    rw [List.filterMap_map]
    refine (List.filterMap_congr ?_).trans List.filterMap_some
    intro c member
    exact (isSegment_of_mem_inner member).2
  cases relative : p.isAbsolute with
  | true => rw [chunks_of_absolute relative, read]
  | false =>
    rw [chunks_of_relative relative]
    rcases components_of_relative relative with same | same
    · rw [same, read]
    · rw [same, List.map_cons, List.filterMap_cons, read]
      rfl

/-- The chunks leave open only whether the path starts at the root directory. -/
theorem same_iff_chunks (level : p.isAbsolute = q.isAbsolute) :
    p.same q = true ↔ p.chunks = q.chunks := by
  rw [same, decide_eq_true_eq]
  constructor
  · intro components
    rw [chunks, components, chunks]
  · intro chunks
    have inner : p.inner = q.inner := by
      rw [inner_eq_filterMap_chunks, chunks, ← inner_eq_filterMap_chunks]
    cases relative : q.isAbsolute with
    | true =>
      rw [components_of_absolute (level.trans relative), components_of_absolute relative, inner]
    | false =>
      have lengths := congrArg List.length chunks
      rw [chunks_of_relative (level.trans relative), chunks_of_relative relative, List.length_map,
        List.length_map] at lengths
      rcases components_of_relative (level.trans relative) with left | left <;>
        rcases components_of_relative relative with right | right <;>
        simp_all

theorem alike_of_same (same : p.same q = true) : p.Alike q := by
  have components : p.components = q.components := of_decide_eq_true same
  have chunks : p.chunks = q.chunks := by rw [chunks, components, Path.chunks]
  exact ⟨by rw [chunks], by rw [chunks]⟩

/-- The root directory leaves no trace in a fingerprint. -/
theorem alike_below_root (relative : p.isAbsolute = false) (plain : .current ∉ p.components) :
    p.Alike ⟨"/" ++ p.text⟩ ∧ p.same ⟨"/" ++ p.text⟩ = false := by
  have absolute : (Path.mk ("/" ++ p.text)).isAbsolute = true := by simp [isAbsolute]
  have inner : (Path.mk ("/" ++ p.text)).inner = p.inner := by
    have cut : segments ("/" ++ p.text).toList = [] :: segments p.text.toList := by
      simpa [segments] using segments_append_separator [] p.text.toList
    rw [Path.inner, cut]
    rfl
  have components : p.components = p.inner := by
    rcases components_of_relative relative with same | same
    · exact same
    · simp [same] at plain
  have chunks : p.chunks = (Path.mk ("/" ++ p.text)).chunks := by
    rw [chunks_of_relative relative, chunks_of_absolute absolute, components, inner]
  refine ⟨⟨by rw [chunks], by rw [chunks]⟩, ?_⟩
  rw [same, components_of_absolute absolute, inner, components]
  simp

theorem mem_chunks (member : chunk ∈ p.chunks) :
    chunk = "." ∨ ∃ c ∈ p.inner, c.text = chunk := by
  cases relative : p.isAbsolute with
  | true =>
    rw [chunks_of_absolute relative, List.mem_map] at member
    exact .inr member
  | false =>
    rw [chunks_of_relative relative] at member
    rcases components_of_relative relative with same | same
    · rw [same, List.mem_map] at member
      exact .inr member
    · rw [same, List.map_cons, List.mem_cons, List.mem_map] at member
      exact member

theorem chunk_ne_empty (member : chunk ∈ p.chunks) : chunk ≠ "" := by
  rintro rfl
  rcases mem_chunks member with dot | ⟨c, inside, empty⟩
  · simp at dot
  · have read := (isSegment_of_mem_inner inside).2
    rw [empty] at read
    simp [innerComponent?] at read

theorem mem_text_of_mem_chunks (member : chunk ∈ p.chunks) {character : Char}
    (inside : character ∈ chunk.toList) : character = '.' ∨ character ∈ p.text.toList := by
  rcases mem_chunks member with rfl | ⟨c, within, rfl⟩
  · exact .inl (List.mem_singleton.1 inside)
  · exact .inr (mem_text_of_mem_inner within inside)

section Short

variable {a b c d : String} {xs ys : List String}

theorem toNat_rotateRight (x : UInt64) :
    (rotateRight x 2).toNat = x.toNat / 4 + x.toNat % 4 * 2 ^ 62 := by
  have bound := x.toNat_lt
  have low : x.toNat / 4 < 2 ^ 62 := by omega
  have high : x.toNat <<< 62 % 2 ^ 64 = (x.toNat % 4) <<< 62 := by
    rw [Nat.shiftLeft_eq, Nat.shiftLeft_eq]
    omega
  simp only [rotateRight, UInt64.toNat_or, UInt64.toNat_shiftRight, UInt64.toNat_shiftLeft]
  change x.toNat >>> 2 ||| x.toNat <<< 62 % 2 ^ 64 = _
  rw [high, Nat.shiftRight_eq_div_pow, Nat.or_comm, ← Nat.shiftLeft_add_eq_or_of_lt low,
    Nat.shiftLeft_eq, Nat.add_comm]

theorem rotateRight_inj {x y : UInt64} (same : rotateRight x 2 = rotateRight y 2) : x = y := by
  have numbers := congrArg UInt64.toNat same
  rw [toNat_rotateRight, toNat_rotateRight] at numbers
  have bound := x.toNat_lt
  have boundToo := y.toNat_lt
  exact UInt64.toNat_inj.1 (by omega)

theorem length_utf8 (text : String) : (utf8 text).length = text.utf8ByteSize := by
  rw [Digest.utf8_eq]
  rfl

/-- A number below the two highest bits, and the two bits. -/
theorem high_bits_unique {m n i j : Nat} (low : m < 2 ^ 62) (lowToo : n < 2 ^ 62) (bits : i < 4)
    (bitsToo : j < 4) (same : (m + i * 2 ^ 62) % 2 ^ 64 = (n + j * 2 ^ 62) % 2 ^ 64) :
    m = n ∧ i = j := by
  rw [Nat.mod_eq_of_lt (by omega), Nat.mod_eq_of_lt (by omega)] at same
  omega

/-- A text cut in two: the word tells where. -/
theorem pair_inj (small : (a ++ b).utf8ByteSize < 2 ^ 62) (text : a ++ b = c ++ d)
    (words : lengthWord [a, b] = lengthWord [c, d]) : a = c ∧ b = d := by
  have sizes := congrArg String.utf8ByteSize text
  rw [String.utf8ByteSize_append] at small
  rw [String.utf8ByteSize_append, String.utf8ByteSize_append] at sizes
  have cut : a.utf8ByteSize = c.utf8ByteSize := by
    simp only [lengthWord, List.foldl_cons, List.foldl_nil, UInt64.zero_add] at words
    have numbers := congrArg UInt64.toNat (rotateRight_inj words)
    have within (m : Nat) (less : m < 2 ^ 62) : (UInt64.ofNat m).toNat = m :=
      UInt64.toNat_ofNat_of_lt' (Nat.lt_trans less (by decide))
    rw [UInt64.toNat_add, UInt64.toNat_add, toNat_rotateRight, toNat_rotateRight,
      within _ (by omega), within _ (by omega), within _ (by omega), within _ (by omega)] at numbers
    rw [Nat.add_right_comm, Nat.add_right_comm (c.utf8ByteSize / 4)] at numbers
    obtain ⟨_, _⟩ := high_bits_unique (by omega) (by omega) (Nat.mod_lt _ (by decide))
      (Nat.mod_lt _ (by decide)) numbers
    omega
  have bytes : utf8 a ++ utf8 b = utf8 c ++ utf8 d := by
    simpa [Digest.utf8_eq_flatMap] using congrArg utf8 text
  obtain ⟨fronts, backs⟩ := List.append_inj bytes (by rw [length_utf8, length_utf8, cut])
  exact ⟨Digest.utf8_injective fronts, Digest.utf8_injective backs⟩

/-- Empty texts in front change neither the joined text nor the word. -/
theorem exists_pair (short : xs.length ≤ 2) (filled : ∀ x ∈ xs, x ≠ "") :
    ∃ a b, xs = [a, b].filter (· ≠ "") ∧ String.join xs = a ++ b ∧
      lengthWord xs = lengthWord [a, b] := by
  match xs with
  | [] => exact ⟨"", "", rfl, rfl, rfl⟩
  | [b] =>
    have unmoved : rotateRight 0 2 = 0 := rfl
    exact ⟨"", b, by simp_all, by simp [String.join], by simp [lengthWord, unmoved]⟩
  | [a, b] => exact ⟨a, b, by simp_all, by simp [String.join], rfl⟩

theorem eq_of_short (short : xs.length ≤ 2) (filled : ∀ x ∈ xs, x ≠ "") (shortToo : ys.length ≤ 2)
    (filledToo : ∀ y ∈ ys, y ≠ "") (small : (String.join xs).utf8ByteSize < 2 ^ 62)
    (text : String.join xs = String.join ys) (words : lengthWord xs = lengthWord ys) : xs = ys := by
  obtain ⟨a, b, left, joined, folded⟩ := exists_pair short filled
  obtain ⟨c, d, right, joinedToo, foldedToo⟩ := exists_pair shortToo filledToo
  rw [joined] at small
  rw [joined, joinedToo] at text
  rw [folded, foldedToo] at words
  obtain ⟨rfl, rfl⟩ := pair_inj small text words
  rw [left, right]

end Short

/-- Both paths start at the root directory or neither does, and both have at most two chunks. -/
structure Comparable (p q : Path) : Prop where
  level : p.isAbsolute = q.isAbsolute
  short : p.chunks.length ≤ 2
  shortToo : q.chunks.length ≤ 2
  small : (String.join p.chunks).utf8ByteSize < 2 ^ 62

theorem Comparable.alike_iff_same (comparable : p.Comparable q) : p.Alike q ↔ p.same q = true := by
  refine ⟨?_, alike_of_same⟩
  intro alike
  rw [same_iff_chunks comparable.level]
  exact eq_of_short comparable.short (fun _ => chunk_ne_empty) comparable.shortToo
    (fun _ => chunk_ne_empty) comparable.small alike.text alike.lengths

end CodeSplit.Path
