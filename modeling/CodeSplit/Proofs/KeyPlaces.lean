import CodeSplit.Config.Located
import CodeSplit.Proofs.Utf8
import Mathlib.Data.List.TakeWhile

/-!
Places of keys in a text. A key is searched among the bytes, and what stands in front of its first
occurrence is counted into a line and a column. Over the lines of the text, as its newlines divide
it, the place leads back to that occurrence: it has the same number of bytes in front of it, and a
key without newlines fills the columns from the first place to the second one.
-/
namespace CodeSplit

open Digest (Bytes utf8)

/-- A key as it is written in a text. -/
def quoted (key : String) : String := "\"" ++ key ++ "\""

/-- `part` stands in the text with `offset` bytes in front of it. -/
def StandsAt (text part : String) (offset : Nat) : Prop :=
  ∃ before after, text = before ++ part ++ after ∧ (utf8 before).length = offset

namespace Text

/-- The pieces between the newlines. -/
def lines (text : String) : List String := (text.split '\n').toList.map (·.copy)

/-- The bytes of a line, the first line being the line 1. -/
def line? (text : String) : Nat → Option Bytes
  | 0 => none
  | n + 1 => (lines text)[n]?.map utf8

/-- The bytes from one place of a line to another one, both included. -/
def between? (text : String) (start stop : Location) : Option Bytes :=
  (line? text start.line).bind fun line =>
    if start.line = stop.line ∧ 0 < start.column ∧ start.column ≤ stop.column ∧
        stop.column ≤ line.length then
      some (line.extract (start.column - 1) stop.column)
    else none

end Text

namespace Location

/-- The number of bytes in front of a place: the lines above with their newlines, and the columns to
the left. A line has one place more than it has bytes. -/
def offset? (place : Location) (text : String) : Option Nat :=
  (Text.line? text place.line).bind fun line =>
    if 0 < place.column ∧ place.column ≤ line.length + 1 then
      let above := (Text.lines text).take (place.line - 1)
      some ((above.flatMap fun line => utf8 line ++ [0x0a]).length + (place.column - 1))
    else none

/-- The place that follows some bytes. -/
def behind (before : Bytes) : Location where
  line := before.count 0x0a + 1
  column := (before.reverse.takeWhile (· ≠ 0x0a)).length + 1

end Location

/-! First occurrences among bytes, and occurrences in texts. -/

section

variable {needle bytes before : Bytes}

theorem beforeFirst?_eq_none_iff :
    beforeFirst? needle bytes = none ↔ ∀ before, ¬ before ++ needle <+: bytes := by
  fun_induction beforeFirst? needle bytes with
  | case1 here | case3 b rest here =>
    rw [List.isPrefixOf_iff_prefix] at here
    exact ⟨by simp, fun absent => absurd here (absent [])⟩
  | case2 elsewhere =>
    rw [List.isPrefixOf_iff_prefix, List.prefix_nil] at elsewhere
    simp [elsewhere]
  | case4 b rest elsewhere ih =>
    rw [List.isPrefixOf_iff_prefix] at elsewhere
    rw [Option.map_eq_none_iff, ih]
    constructor
    · intro absent before stands
      cases before with
      | nil => exact elsewhere stands
      | cons c before => exact absent before (List.cons_prefix_cons.1 stands).2
    · intro absent before stands
      exact absent (b :: before) (List.cons_prefix_cons.2 ⟨rfl, stands⟩)

theorem beforeFirst?_eq_some (found : beforeFirst? needle bytes = some before) :
    before ++ needle <+: bytes ∧
      ∀ other, other ++ needle <+: bytes → before.length ≤ other.length := by
  fun_induction beforeFirst? needle bytes generalizing before with
  | case1 here | case3 b rest here =>
    obtain rfl := Option.some.inj found
    exact ⟨List.isPrefixOf_iff_prefix.1 here, by simp⟩
  | case2 => simp at found
  | case4 b rest elsewhere ih =>
    rw [List.isPrefixOf_iff_prefix] at elsewhere
    obtain ⟨before, later, rfl⟩ := Option.map_eq_some_iff.1 found
    obtain ⟨stands, first⟩ := ih later
    refine ⟨List.cons_prefix_cons.2 ⟨rfl, stands⟩, fun other standsToo => ?_⟩
    cases other with
    | nil => exact absurd standsToo elsewhere
    | cons c other => exact Nat.succ_le_succ (first other (List.cons_prefix_cons.1 standsToo).2)

end

/-- Quotes bound the key, so its bytes are found only where whole characters begin and end. -/
theorem standsAt_quoted_iff {text key : String} {offset : Nat} :
    StandsAt text (quoted key) offset ↔
      ∃ before, before ++ utf8 (quoted key) <+: utf8 text ∧ before.length = offset := by
  constructor
  · rintro ⟨before, after, rfl, size⟩
    refine ⟨utf8 before, ⟨utf8 after, ?_⟩, size⟩
    simp only [Digest.utf8_append]
  · rintro ⟨before, ⟨after, bytes⟩, rfl⟩
    have ascii : '"'.toNat < 128 := by decide
    have quote : utf8 "\"" = [UInt8.ofNat '"'.toNat] := by
      rw [Digest.utf8_eq_flatMap]
      rfl
    have cutAtEnd : utf8 text =
        (before ++ UInt8.ofNat '"'.toNat :: utf8 key) ++ UInt8.ofNat '"'.toNat :: after := by
      simp [← bytes, quoted, Digest.utf8_append, quote]
    -- The closing quote gives the end of a character, the opening one the start of another.
    obtain ⟨opened, rest, rfl, cutAtStart, _⟩ := Digest.exists_append_of_utf8 ascii cutAtEnd
    obtain ⟨front, inner, rfl, rfl, same⟩ := Digest.exists_append_of_utf8 ascii cutAtStart
    obtain rfl := Digest.utf8_injective same
    refine ⟨front, rest, ?_, rfl⟩
    simp only [quoted, String.append_assoc]
    rfl

/-! The lines of a text, and the place behind some of its bytes. -/

namespace Text

theorem splitOn_append_of_not_mem {part : Bytes} (unbroken : 0x0a ∉ part) (rest : Bytes) :
    (part ++ rest).splitOn 0x0a = (rest.splitOn 0x0a).modifyHead (part ++ ·) := by
  induction part with
  | nil => exact (congrFun List.modifyHead_id _).symm
  | cons b part ih =>
    rw [List.mem_cons, not_or] at unbroken
    obtain ⟨other, later⟩ := unbroken
    simp [List.splitOn_cons_eq_if_modifyHead, Ne.symm other, ih later, Function.comp_def]

theorem splitOn_flatMap_utf8EncodeChar (cs : List Char) :
    (cs.flatMap String.utf8EncodeChar).splitOn 0x0a =
      (cs.splitOn '\n').map (·.flatMap String.utf8EncodeChar) := by
  have ascii : '\n'.toNat < 128 := by decide
  induction cs with
  | nil => rfl
  | cons c cs ih =>
    rw [List.flatMap_cons, List.splitOn_cons_eq_if_modifyHead]
    by_cases ends : c = '\n'
    · subst ends
      rw [Digest.utf8EncodeChar_of_ascii ascii]
      simpa [List.splitOn_cons_eq_if_modifyHead] using ih
    · have unbroken : 0x0a ∉ String.utf8EncodeChar c := fun member =>
        ends ((Digest.ofNat_mem_utf8EncodeChar_iff ascii).1 member).symm
      rw [splitOn_append_of_not_mem unbroken, ih]
      cases cs.splitOn '\n' <;> simp [ends]

theorem map_utf8_lines (text : String) : (lines text).map utf8 = (utf8 text).splitOn 0x0a := by
  rw [lines, String.toList_split_char, Digest.utf8_eq_flatMap, splitOn_flatMap_utf8EncodeChar]
  simp [Digest.utf8_eq_flatMap]

/-- Bytes are cut into full lines and a last one, which goes on behind them. -/
inductive Cut : Bytes → List Bytes → Bytes → Prop
  | last {line : Bytes} (unbroken : 0x0a ∉ line) : Cut line [] line
  | cons {line rest : Bytes} {full : List Bytes} {last : Bytes} (unbroken : 0x0a ∉ line)
      (cut : Cut rest full last) : Cut (line ++ 0x0a :: rest) (line :: full) last

theorem exists_cut (before : Bytes) : ∃ full last, Cut before full last := by
  induction before with
  | nil => exact ⟨[], [], .last List.not_mem_nil⟩
  | cons b before ih =>
    obtain ⟨full, last, cut⟩ := ih
    by_cases ends : b = 0x0a
    · subst ends
      exact ⟨[] :: full, last, .cons List.not_mem_nil cut⟩
    · have longer {line : Bytes} (unbroken : 0x0a ∉ line) : 0x0a ∉ b :: line :=
        List.not_mem_cons_of_ne_of_not_mem (Ne.symm ends) unbroken
      cases cut with
      | last unbroken => exact ⟨[], _, .last (longer unbroken)⟩
      | cons unbroken cut => exact ⟨_, last, .cons (longer unbroken) cut⟩

namespace Cut

variable {before : Bytes} {full : List Bytes} {last : Bytes}

theorem eq_flatMap (cut : Cut before full last) :
    before = full.flatMap (· ++ [0x0a]) ++ last := by
  induction cut with
  | last => rfl
  | cons _ _ ih => simp [← ih]

theorem splitOn_append (cut : Cut before full last) (rest : Bytes) :
    (before ++ rest).splitOn 0x0a = full ++ (rest.splitOn 0x0a).modifyHead (last ++ ·) := by
  induction cut with
  | last unbroken => exact splitOn_append_of_not_mem unbroken rest
  | cons unbroken _ ih =>
    rw [List.append_assoc, List.cons_append, List.splitOn_append_cons_self_of_not_mem unbroken, ih]
    rfl

theorem count_eq (cut : Cut before full last) : before.count 0x0a = full.length := by
  induction cut with
  | last unbroken => exact List.count_eq_zero.2 unbroken
  | cons unbroken _ ih => simp [List.count_append, List.count_eq_zero.2 unbroken, ih]

theorem takeWhile_reverse_eq (cut : Cut before full last) :
    before.reverse.takeWhile (· ≠ 0x0a) = last.reverse := by
  induction cut with
  | @last line unbroken =>
    rw [List.takeWhile_eq_self_iff]
    intro b member
    simpa using ne_of_mem_of_not_mem (List.mem_reverse.1 member) unbroken
  | @cons line rest full last unbroken cut ih =>
    rw [List.reverse_append, List.reverse_cons, List.append_assoc, List.takeWhile_append]
    -- The newline ends the run even where the rest has none of its own.
    split
    case isTrue whole =>
      rw [← ih, (List.takeWhile_prefix _).eq_of_length whole]
      simp
    case isFalse => exact ih

theorem behind_eq (cut : Cut before full last) :
    Location.behind before = ⟨full.length + 1, last.length + 1⟩ := by
  rw [Location.behind, cut.count_eq, cut.takeWhile_reverse_eq, List.length_reverse]

end Cut

variable {text : String} {before rest last : Bytes} {full : List Bytes}

/-- The line of a place goes on with what stands behind it up to the next newline. -/
theorem exists_line (cut : Cut before full last) (bytes : utf8 text = before ++ rest) :
    ∃ piece pieces, rest.splitOn 0x0a = piece :: pieces ∧
      line? text (full.length + 1) = some (last ++ piece) := by
  obtain ⟨piece, pieces, split⟩ : ∃ piece pieces, rest.splitOn 0x0a = piece :: pieces :=
    List.exists_cons_of_ne_nil (List.splitOn_ne_nil _ _)
  refine ⟨piece, pieces, split, ?_⟩
  rw [line?, ← List.getElem?_map, map_utf8_lines, bytes, cut.splitOn_append, split]
  simp

theorem map_take_lines (cut : Cut before full last) (bytes : utf8 text = before ++ rest) :
    ((lines text).take full.length).map utf8 = full := by
  rw [List.map_take, map_utf8_lines, bytes, cut.splitOn_append, List.take_left]

end Text

section

variable {text : String} {before part : Bytes}

/-- The place behind some bytes of the text has just these in front of it. -/
theorem offset?_behind (inside : before <+: utf8 text) :
    (Location.behind before).offset? text = some before.length := by
  obtain ⟨rest, bytes⟩ := inside
  obtain ⟨full, last, cut⟩ := Text.exists_cut before
  obtain ⟨piece, pieces, _, line⟩ := Text.exists_line cut bytes.symm
  have above : ((Text.lines text).take full.length).flatMap (fun line => utf8 line ++ [0x0a]) =
      full.flatMap (· ++ [0x0a]) := by
    rw [← List.flatMap_map utf8 (· ++ [0x0a]), Text.map_take_lines cut bytes.symm]
  rw [cut.behind_eq, Location.offset?, line, Option.bind_some, if_pos (by simp)]
  simp only [Nat.add_sub_cancel, above, ← List.length_append, ← cut.eq_flatMap]

/-- A part without newlines fills the columns behind the bytes that it follows. -/
theorem between?_behind (stands : before ++ part <+: utf8 text) (unbroken : 0x0a ∉ part)
    (filled : part ≠ []) :
    let start := Location.behind before
    Text.between? text start ⟨start.line, start.column + part.length - 1⟩ = some part := by
  intro start
  obtain ⟨after, bytes⟩ := stands
  obtain ⟨full, last, cut⟩ := Text.exists_cut before
  obtain ⟨piece, pieces, split, line⟩ :=
    Text.exists_line cut (bytes.symm.trans (List.append_assoc ..))
  obtain ⟨tail, rfl⟩ : ∃ tail, piece = part ++ tail := by
    rw [Text.splitOn_append_of_not_mem unbroken] at split
    cases rest : after.splitOn 0x0a with
    | nil => simp [rest] at split
    | cons tail tails =>
      rw [rest] at split
      exact ⟨tail, (List.cons.inj split).1.symm⟩
  have positive : 0 < part.length := List.length_pos_iff.2 filled
  have place : start = ⟨full.length + 1, last.length + 1⟩ := cut.behind_eq
  rw [place, Text.between?, line, Option.bind_some, if_pos]
  · simp [List.extract_eq_take_drop]
  · simp only [List.length_append, true_and]
    omega

end

theorem newline_not_mem_quoted {key : String} (plain : '\n' ∉ key.toList) :
    0x0a ∉ utf8 (quoted key) := by
  have ascii : '\n'.toNat < 128 := by decide
  change UInt8.ofNat '\n'.toNat ∉ utf8 (quoted key)
  rw [Digest.ofNat_mem_utf8_iff ascii]
  simp [quoted, plain]

theorem utf8_quoted_ne_nil (key : String) : utf8 (quoted key) ≠ [] := by
  have ascii : '"'.toNat < 128 := by decide
  exact List.ne_nil_of_mem ((Digest.ofNat_mem_utf8_iff ascii).2 (by simp [quoted]))

theorem locateKey?_eq (contents key : String) :
    locateKey? contents key =
      (beforeFirst? (utf8 (quoted key)) (utf8 contents)).map fun before =>
        let start := Location.behind before
        (start, ⟨start.line, start.column + (utf8 (quoted key)).length - 1⟩) := rfl

/-- A key is located if and only if it stands in the contents in quotes. The first place is that of
an occurrence, no other one begins earlier, and if there is no newline in the key the bytes between
the two places are the quoted key. -/
theorem located_keys_point_at_their_text (contents key : String) :
    (locateKey? contents key = none ↔ ∀ offset, ¬ StandsAt contents (quoted key) offset) ∧
      ∀ start stop, locateKey? contents key = some (start, stop) →
        start.line = stop.line ∧
        (∃ offset, start.offset? contents = some offset ∧
          StandsAt contents (quoted key) offset ∧
          ∀ earlier < offset, ¬ StandsAt contents (quoted key) earlier) ∧
        ('\n' ∉ key.toList → Text.between? contents start stop = some (utf8 (quoted key))) := by
  rw [locateKey?_eq]
  refine ⟨?_, fun start stop located => ?_⟩
  · rw [Option.map_eq_none_iff, beforeFirst?_eq_none_iff]
    simp [standsAt_quoted_iff]
  · obtain ⟨before, found, places⟩ := Option.map_eq_some_iff.1 located
    obtain ⟨rfl, rfl⟩ := Prod.mk.inj places
    obtain ⟨stands, first⟩ := beforeFirst?_eq_some found
    refine ⟨rfl, ⟨before.length, ?_, standsAt_quoted_iff.2 ⟨before, stands, rfl⟩, ?_⟩, ?_⟩
    · exact offset?_behind ((List.prefix_append _ _).trans stands)
    · intro earlier less standsToo
      obtain ⟨other, prefixed, rfl⟩ := standsAt_quoted_iff.1 standsToo
      exact absurd (first other prefixed) (Nat.not_le.2 less)
    · intro plain
      exact between?_behind stands (newline_not_mem_quoted plain) (utf8_quoted_ne_nil key)

/-- Contents with longer characters in front of a key. -/
def indented : String := "\x7b\n  \"größe\": 1, \"minBundles\": 2\n\x7d"

/-- Columns count bytes and not characters. -/
theorem indented_minBundles_located :
    locateKey? indented "minBundles" = some (⟨2, 17⟩, ⟨2, 28⟩) ∧
      Text.between? indented ⟨2, 17⟩ ⟨2, 28⟩ = some (utf8 "\"minBundles\"") := by
  have located : locateKey? indented "minBundles" = some (⟨2, 17⟩, ⟨2, 28⟩) := by decide +kernel
  have plain : '\n' ∉ "minBundles".toList := by decide
  exact ⟨located, ((located_keys_point_at_their_text _ _).2 _ _ located).2.2 plain⟩

end CodeSplit
