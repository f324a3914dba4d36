import CodeSplit.Proofs.PathFingerprints
import CodeSplit.Target
import Mathlib.Tactic.MkIffOfInductiveProp

/-!
What the fingerprint of a target tells. A path does not show where it ends, so what comes after the
paths of a target is read from the end: the public URL by the byte that closes it, and the texts
before it by the last byte that flags or tags have and they have not. That leaves the paths, which
are told as far as their own fingerprints tell them.
-/
namespace CodeSplit

namespace Fingerprint

open Digest (Bytes utf8 wordBytes)

variable {front fronts : Bytes}

/-- The text has neither of the two characters whose bytes flags are made of. -/
def isPlain (s : String) : Bool := s.toList.all fun c => 1 < c.toNat

theorem not_le_one_of_mem_utf8 {s : String} (plain : isPlain s = true) {byte : UInt8}
    (member : byte ∈ utf8 s) : ¬ byte ≤ 1 := by
  intro low
  have characters : ∀ c ∈ s.toList, 1 < c.toNat := by simpa [isPlain] using plain
  have absent (c : Char) (small : c.toNat ≤ 1) : UInt8.ofNat c.toNat ∉ utf8 s := by
    rw [Digest.ofNat_mem_utf8_iff (by omega)]
    intro inside
    exact absurd (characters c inside) (by omega)
  have number : byte.toNat ≤ 1 := low
  rcases Nat.le_one_iff_eq_zero_or_eq_one.1 number with zero | one
  · obtain rfl : byte = 0 := UInt8.toNat_inj.1 zero
    exact absent (Char.ofNat 0) (by decide) member
  · obtain rfl : byte = 1 := UInt8.toNat_inj.1 one
    exact absent (Char.ofNat 1) (by decide) member

/-- What comes after the last marked byte is told by where that byte is. -/
theorem append_marked_inj (marked : UInt8 → Prop) {m n : UInt8} {back backs : Bytes}
    (isMarked : marked m) (isMarkedToo : marked n) (free : ∀ byte ∈ back, ¬ marked byte)
    (freeToo : ∀ byte ∈ backs, ¬ marked byte) (same : front ++ m :: back = fronts ++ n :: backs) :
    front = fronts ∧ m = n ∧ back = backs := by
  rcases List.append_eq_append_iff.1 same with ⟨between, rfl, tail⟩ | ⟨between, rfl, tail⟩
  · cases between with
    | nil => simpa using tail
    | cons byte between =>
      obtain ⟨_, rfl⟩ := List.cons.inj tail
      exact absurd isMarkedToo (free n (by simp))
  · cases between with
    | nil => simpa [eq_comm] using tail
    | cons byte between =>
      obtain ⟨_, rfl⟩ := List.cons.inj tail
      exact absurd isMarked (freeToo m (by simp))

theorem append_text_inj {s t : String} (same : front ++ text s = fronts ++ text t) :
    front ++ utf8 s = fronts ++ utf8 t := by
  simp only [text, ← List.append_assoc] at same
  exact (List.append_inj' same rfl).1

theorem tag_one : tag 1 = [1, 0, 0, 0, 0, 0, 0] ++ [0] := by decide

/-- A plain text after a tag, read from the end. -/
theorem append_tag_inj {s t : String} (plain : isPlain s = true) (plainToo : isPlain t = true)
    (same : front ++ tag 1 ++ utf8 s = fronts ++ tag 1 ++ utf8 t) : front = fronts ∧ s = t := by
  simp only [tag_one, ← List.append_assoc] at same
  rw [List.append_assoc _ [0], List.append_assoc _ [0]] at same
  obtain ⟨fronts, _, bytes⟩ := append_marked_inj (· ≤ 1) (by decide) (by decide)
    (fun _ => not_le_one_of_mem_utf8 plain) (fun _ => not_le_one_of_mem_utf8 plainToo) same
  exact ⟨List.append_cancel_right fronts, Digest.utf8_injective bytes⟩

/-- A plain text after a flag, read from the end. -/
theorem append_flag_inj {b c : Bool} {s t : String} (plain : isPlain s = true)
    (plainToo : isPlain t = true) (same : front ++ flag b ++ utf8 s = fronts ++ flag c ++ utf8 t) :
    front = fronts ∧ b = c ∧ s = t := by
  have low (b : Bool) : (if b then 1 else 0 : UInt8) ≤ 1 := by cases b <;> decide
  simp only [flag, List.append_assoc, List.singleton_append] at same
  obtain ⟨fronts, flags, bytes⟩ := append_marked_inj (· ≤ 1) (low b) (low c)
    (fun _ => not_le_one_of_mem_utf8 plain) (fun _ => not_le_one_of_mem_utf8 plainToo) same
  exact ⟨fronts, selfDelimiting_flag.injective (congrArg (fun byte => [byte]) flags),
    Digest.utf8_injective bytes⟩

theorem append_option_text_inj {s t : Option String} (plain : s.all isPlain = true)
    (plainToo : t.all isPlain = true) (same : front ++ option text s = fronts ++ option text t) :
    front = fronts ∧ s = t := by
  -- An absent text ends in zero, a text in the byte that closes it.
  have apart (front fronts : Bytes) (t : String) :
      front ++ tag 0 ≠ fronts ++ (tag 1 ++ text t) := by
    intro same
    have tag_zero : tag 0 = List.replicate 7 0 ++ [0] := by decide
    simp only [tag_zero, text, ← List.append_assoc] at same
    exact absurd (List.append_inj' same rfl).2 (by decide)
  cases s with
  | none =>
    cases t with
    | none => exact ⟨List.append_cancel_right same, rfl⟩
    | some t => exact absurd same (apart _ _ _)
  | some s =>
    cases t with
    | none => exact absurd same.symm (apart _ _ _)
    | some t =>
      simp only [option, ← List.append_assoc] at same
      obtain ⟨fronts, rfl⟩ := append_tag_inj plain plainToo (append_text_inj same)
      exact ⟨fronts, rfl⟩

section Option

variable {α : Type} {piece : α → Bytes} {s t : Option α}

theorem option_congr (same : s.map piece = t.map piece) : option piece s = option piece t := by
  cases s <;> cases t <;> simp_all [option]

theorem map_eq_map_iff_rel {r : α → α → Prop}
    (told : ∀ a ∈ s, ∀ b ∈ t, piece a = piece b ↔ r a b) :
    s.map piece = t.map piece ↔ Option.Rel r s t := by
  constructor
  · intro same
    cases s with
    | none =>
      cases t with
      | none => exact .none
      | some b => cases same
    | some a =>
      cases t with
      | none => cases same
      | some b => exact .some ((told a rfl b rfl).1 (Option.some.inj same))
  · rintro (related | _)
    · exact congrArg some ((told _ rfl _ rfl).2 related)
    · rfl

end Option

end Fingerprint

open Fingerprint
open Digest (Bytes utf8 wordBytes)

namespace Environment

def Engines.isPlain (e : Engines) : Bool :=
  [e.browsers, e.electron, e.node].all fun version => version.all Fingerprint.isPlain

theorem Engines.append_fingerprint_inj {e f : Engines} {front fronts : Bytes}
    (plain : e.isPlain = true) (plainToo : f.isPlain = true)
    (same : front ++ e.fingerprint = fronts ++ f.fingerprint) : front = fronts ∧ e = f := by
  simp only [Engines.isPlain, List.all_cons, List.all_nil, Bool.and_true, Bool.and_eq_true]
    at plain plainToo
  simp only [Engines.fingerprint, ← List.append_assoc] at same
  obtain ⟨same, node⟩ := append_option_text_inj plain.2.2 plainToo.2.2 same
  obtain ⟨same, electron⟩ := append_option_text_inj plain.2.1 plainToo.2.1 same
  obtain ⟨same, browsers⟩ := append_option_text_inj plain.1 plainToo.1 same
  refine ⟨same, ?_⟩
  cases e
  cases f
  simp_all

/-- An environment and a text after it, read from the end. -/
theorem append_fingerprint_inj {e f : Environment} {s t : String} {front fronts : Bytes}
    (plain : e.engines.isPlain = true) (plainToo : f.engines.isPlain = true)
    (plainText : isPlain s = true) (plainTextToo : isPlain t = true)
    (same : front ++ e.fingerprint ++ utf8 s = fronts ++ f.fingerprint ++ utf8 t) :
    front = fronts ∧ e = f ∧ s = t := by
  have tags (m n : Nat) : (tag m).length = (tag n).length := by
    simp [tag, Digest.length_wordBytes]
  simp only [fingerprint, ← List.append_assoc] at same
  obtain ⟨same, singleFile, texts⟩ := append_flag_inj plainText plainTextToo same
  obtain ⟨same, optimize⟩ := List.append_inj' same rfl
  obtain ⟨same, scopeHoist⟩ := List.append_inj' same rfl
  obtain ⟨same, format⟩ := List.append_inj' same (tags _ _)
  obtain ⟨same, isLibrary⟩ := List.append_inj' same rfl
  obtain ⟨same, engines⟩ := Engines.append_fingerprint_inj plain plainToo same
  obtain ⟨same, context⟩ := List.append_inj' same (tags _ _)
  have flags := selfDelimiting_flag.injective
  refine ⟨same, ?_, texts⟩
  have optimize := flags optimize
  have scopeHoist := flags scopeHoist
  have isLibrary := flags isLibrary
  have format := OutputFormat.selfDelimiting_index.injective format
  have context := Context.selfDelimiting_index.injective context
  cases e
  cases f
  simp_all

end Environment

namespace Path

variable {p q : Path} {entry other : Option Path}

theorem isPlain_join_chunks (plain : isPlain p.text = true) :
    isPlain (String.join p.chunks) = true := by
  simp only [isPlain, List.all_eq_true, decide_eq_true_eq] at plain ⊢
  intro c member
  rw [String.toList_join, List.mem_flatMap] at member
  obtain ⟨chunk, isChunk, inside⟩ := member
  rcases mem_text_of_mem_chunks isChunk inside with rfl | inside
  · decide
  · exact plain c inside

/-- A file that a target names: its text is plain, and it has a name. -/
def isPlainFile (p : Path) : Bool := isPlain p.text && !p.chunks.isEmpty

theorem join_chunks_ne_empty (named : p.chunks ≠ []) : utf8 (String.join p.chunks) ≠ [] := by
  obtain ⟨chunk, chunks, some⟩ := List.exists_cons_of_ne_nil named
  have filled : chunk ≠ "" := chunk_ne_empty (some ▸ List.mem_cons_self)
  rw [utf8_join, some, List.flatMap_cons]
  intro empty
  have nothing : utf8 "" = [] := by simp [Digest.utf8_eq_flatMap]
  exact filled (Digest.utf8_injective ((List.append_eq_nil_iff.1 empty).1.trans nothing.symm))

/-- The tag of the file would stand inside of the text of the other directory. -/
theorem fingerprint_append_ne (plain : isPlain p.text = true) {file : Path}
    (plainFile : file.isPlainFile = true) :
    p.fingerprint ++ tag 0 ≠ q.fingerprint ++ (tag 1 ++ file.fingerprint) := by
  intro same
  rw [isPlainFile, Bool.and_eq_true, Bool.not_eq_true', List.isEmpty_eq_false_iff] at plainFile
  have named := List.length_pos_of_ne_nil (join_chunks_ne_empty plainFile.2)
  rw [fingerprint_eq p, fingerprint_eq file, ← List.append_assoc, ← List.append_assoc] at same
  obtain ⟨same, _⟩ := List.append_inj' same (by simp [tag, Digest.length_wordBytes])
  have lengths := congrArg List.length same
  simp only [List.length_append, Digest.length_wordBytes, tag] at lengths
  have start : q.fingerprint ++ [1] <+:
      utf8 (String.join p.chunks) ++ wordBytes (lengthWord p.chunks) := by
    rw [same, tag_one]
    simp
  have inside := List.prefix_of_prefix_length_le start (List.prefix_append _ _) (by
    rw [List.length_append, List.length_singleton]
    omega)
  have member : 1 ∈ utf8 (String.join p.chunks) := inside.subset (by simp)
  exact not_le_one_of_mem_utf8 (isPlain_join_chunks plain) member (by decide)

/-- The paths of a target, read from the start. -/
theorem fingerprint_append_inj (plain : isPlain p.text = true) (plainToo : isPlain q.text = true)
    (plainFile : entry.all isPlainFile = true) (plainFileToo : other.all isPlainFile = true)
    (same : p.fingerprint ++ option Path.fingerprint entry =
      q.fingerprint ++ option Path.fingerprint other) :
    p.Alike q ∧ Option.Rel Alike entry other := by
  cases entry with
  | none =>
    cases other with
    | none => exact ⟨fingerprint_eq_iff.1 (List.append_cancel_right same), .none⟩
    | some file => exact absurd same (fingerprint_append_ne plain plainFileToo)
  | some file =>
    cases other with
    | none => exact absurd same.symm (fingerprint_append_ne plainToo plainFile)
    | some other =>
      simp only [Option.all_some, isPlainFile, Bool.and_eq_true] at plainFile plainFileToo
      simp only [option, fingerprint_eq file, fingerprint_eq other, ← List.append_assoc] at same
      obtain ⟨same, words⟩ := List.append_inj' same (by simp [Digest.length_wordBytes])
      obtain ⟨same, texts⟩ := append_tag_inj (isPlain_join_chunks plainFile.1)
        (isPlain_join_chunks plainFileToo.1) same
      exact ⟨fingerprint_eq_iff.1 same, .some ⟨texts, Digest.wordBytes_inj words⟩⟩

end Path

namespace Target

variable {s t : Target}

/-- Texts are plain up to the name, and a named file has a name. -/
def isPlain (t : Target) : Bool :=
  Fingerprint.isPlain t.distDir.text && t.distEntry.all Path.isPlainFile &&
    t.env.engines.isPlain && Fingerprint.isPlain t.name

/-- Two targets agree but for paths, which are alike. -/
@[mk_iff]
structure Alike (s t : Target) : Prop where
  distDir : s.distDir.Alike t.distDir
  distEntry : Option.Rel Path.Alike s.distEntry t.distEntry
  env : s.env = t.env
  name : s.name = t.name
  publicUrl : s.publicUrl = t.publicUrl

theorem exists_body (t : Target) : ∃ body, t.fingerprint = body ++ [0xff] :=
  ⟨_, (List.append_assoc _ _ _).symm⟩

/-- The public URL stands between the last two closing bytes. -/
theorem append_publicUrl_inj (same : s.fingerprint = t.fingerprint) :
    s.publicUrl = t.publicUrl ∧
      s.distDir.fingerprint ++ option Path.fingerprint s.distEntry ++ s.env.fingerprint ++
          utf8 s.name =
        t.distDir.fingerprint ++ option Path.fingerprint t.distEntry ++ t.env.fingerprint ++
          utf8 t.name := by
  simp only [fingerprint] at same
  have same := append_text_inj same
  simp only [text, ← List.append_assoc] at same
  rw [List.append_assoc _ [_] (utf8 s.publicUrl),
    List.append_assoc _ [_] (utf8 t.publicUrl)] at same
  have free (url : String) : ∀ byte ∈ utf8 url, ¬ byte = 0xff := by
    intro byte member closing
    exact Digest.not_mem_utf8 url (closing ▸ member)
  obtain ⟨fronts, _, bytes⟩ := append_marked_inj (· = 0xff) rfl rfl (free _) (free _) same
  exact ⟨Digest.utf8_injective bytes, fronts⟩

theorem Alike.fingerprint_eq (alike : s.Alike t) : s.fingerprint = t.fingerprint := by
  have entries := option_congr
    ((map_eq_map_iff_rel fun _ _ _ _ => Path.fingerprint_eq_iff).2 alike.distEntry)
  rw [fingerprint, fingerprint, Path.fingerprint_eq_iff.2 alike.distDir, entries, alike.env,
    alike.name, alike.publicUrl]

theorem fingerprint_eq_iff (plain : s.isPlain = true) (plainToo : t.isPlain = true) :
    s.fingerprint = t.fingerprint ↔ s.Alike t := by
  simp only [isPlain, Bool.and_eq_true] at plain plainToo
  obtain ⟨⟨⟨directory, file⟩, engines⟩, name⟩ := plain
  obtain ⟨⟨⟨directoryToo, fileToo⟩, enginesToo⟩, nameToo⟩ := plainToo
  refine ⟨?_, Alike.fingerprint_eq⟩
  intro same
  obtain ⟨publicUrl, same⟩ := append_publicUrl_inj same
  obtain ⟨same, env, names⟩ :=
    Environment.append_fingerprint_inj engines enginesToo name nameToo same
  obtain ⟨distDir, distEntry⟩ :=
    Path.fingerprint_append_inj directory directoryToo file fileToo same
  exact ⟨distDir, distEntry, env, names, publicUrl⟩

/-- Of other targets fingerprints tell less. The lengths of the first directory below pass for the
end of the second one, and the tag of a file for its lengths. What follows fits if the file has no
name, or if it and the name of the target are of characters that pass for tags. -/
theorem fingerprint_of_unplain :
    let short : Path := ⟨"a/a/a/a/a/a/a/a/a/a/a/a/a/a/a/a/a/a/a/a/a/a/a/a/a/a/a/a/a/a/a/a"⟩
    let long : Path := ⟨"aaaa/aaa/aaa/aaa/aaa/aaa/aaa/aaa/aaa/aaa/aUU/UUU/UUU"⟩
    let zeros := "\x00\x00\x00\x00\x00\x00\x00\x00"
    let unnamed : Target := { distDir := short, distEntry := some ⟨"/"⟩ }
    let absent : Target := { distDir := long }
    let filed : Target := { distDir := short, distEntry := some ⟨zeros⟩ }
    let renamed : Target :=
      { distDir := long, env := { context := .electronRenderer }, name := zeros ++ "default" }
    (unnamed.fingerprint = absent.fingerprint ∧ ¬ unnamed.Alike absent) ∧
      filed.fingerprint = renamed.fingerprint ∧ ¬ filed.Alike renamed := by
  intro short long zeros unnamed absent filed renamed
  have longer : long.fingerprint = short.fingerprint ++ tag 1 := by
    simp only [Path.fingerprint_eq, Digest.utf8_eq_flatMap]
    decide +kernel
  refine ⟨⟨?_, ?_⟩, ?_, ?_⟩
  · simp only [fingerprint, unnamed, absent, longer, option, List.append_assoc]
    rw [show Path.fingerprint ⟨"/"⟩ = tag 0 by decide +kernel]
  · intro alike
    exact absurd alike.distEntry (by rintro ⟨⟩)
  · simp only [fingerprint, filed, renamed, longer, option, List.append_assoc]
    refine congrArg (fun rest => short.fingerprint ++ (tag 1 ++ rest)) ?_
    simp only [Path.fingerprint_eq, text, Digest.utf8_eq_flatMap]
    decide +kernel
  · intro alike
    exact absurd alike.distEntry (by rintro ⟨⟩)

theorem alike_of_distDir {p : Path} (alike : t.distDir.Alike p) :
    t.Alike { t with distDir := p } := by
  refine ⟨alike, ?_, rfl, rfl, rfl⟩
  cases t.distEntry with
  | none => exact .none
  | some file => exact .some ⟨rfl, rfl⟩

theorem alike_iff_same (directories : s.distDir.Comparable t.distDir)
    (files : ∀ p ∈ s.distEntry, ∀ q ∈ t.distEntry, p.Comparable q) :
    s.Alike t ↔ s.same t = true := by
  obtain ⟨directory, file, env, name, url⟩ := s
  obtain ⟨directoryToo, fileToo, envToo, nameToo, urlToo⟩ := t
  rw [alike_iff, directories.alike_iff_same]
  cases file with
  | none => cases fileToo <;> simp [same, and_assoc]
  | some p =>
    cases fileToo with
    | none => simp [same]
    | some q => simp [same, (files p rfl q rfl).alike_iff_same, and_assoc]

end Target

end CodeSplit
