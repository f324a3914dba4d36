import CodeSplit.Digest
import CodeSplit.Keyed.Order
import Mathlib.Tactic.SplitIfs

/-!
The UTF-8 bytes of texts. They are the bytes of the characters one after the other, none of them is
the byte that closes a text in a fingerprint, and they order texts as the code points do.
-/
namespace CodeSplit

/-- Bytes are ordered by their values. -/
instance : KeyOrder UInt8 := KeyOrder.along UInt8.toNat fun _ _ same => UInt8.toNat_inj.1 same

namespace Digest

open KeyOrder (listBefore listBefore_cons)

/-- The loop has taken the first bytes, the last of them first. -/
theorem toList_loop {bytes : ByteArray} {n : Nat} {taken : Bytes}
    (invariant : taken.reverse = bytes.data.toList.take n) :
    ByteArray.toList.loop bytes n taken = bytes.data.toList := by
  fun_induction ByteArray.toList.loop bytes n taken with
  | case1 n taken inside ih =>
    apply ih
    rw [List.reverse_cons, invariant, List.take_add_one]
    simp [ByteArray.get!, inside]
  | case2 n taken outside =>
    have all : bytes.data.toList.length ≤ n := by simpa using outside
    rw [invariant, List.take_of_length_le all]

theorem utf8_eq (text : String) : utf8 text = text.toByteArray.data.toList := by
  rw [utf8, String.toUTF8_eq_toByteArray, ByteArray.toList, toList_loop]
  simp

theorem utf8_injective {s t : String} (same : utf8 s = utf8 t) : s = t := by
  rw [utf8_eq, utf8_eq] at same
  exact String.toByteArray_inj.1 (ByteArray.ext (Array.toList_inj.1 same))

theorem utf8_eq_flatMap (text : String) :
    utf8 text = text.toList.flatMap String.utf8EncodeChar := by
  rw [utf8_eq, ← String.utf8Encode_toList, List.utf8Encode, List.toList_data_toByteArray]

theorem toNat_lt_of_mem_utf8EncodeChar {c : Char} {byte : UInt8}
    (member : byte ∈ String.utf8EncodeChar c) : byte.toNat < 0xf8 := by
  simp only [String.utf8EncodeChar] at member
  split_ifs at member
  all_goals
    simp only [List.mem_cons, List.not_mem_nil, or_false] at member
    grind [UInt8.toNat_ofNat']

/-- No text has the largest byte. -/
theorem not_mem_utf8 (text : String) : 0xff ∉ utf8 text := by
  rw [utf8_eq_flatMap, List.mem_flatMap]
  rintro ⟨c, _, member⟩
  exact absurd (toNat_lt_of_mem_utf8EncodeChar member) (by decide)

theorem ofNat_mem_utf8EncodeChar_iff {c d : Char} (ascii : c.toNat < 128) :
    UInt8.ofNat c.toNat ∈ String.utf8EncodeChar d ↔ c = d := by
  have same (m : Nat) (small : m < 256) : UInt8.ofNat c.toNat = UInt8.ofNat m ↔ c.toNat = m := by
    rw [← UInt8.toNat_inj, UInt8.toNat_ofNat', UInt8.toNat_ofNat', Nat.mod_eq_of_lt (by omega),
      Nat.mod_eq_of_lt (by omega)]
  rw [← Char.toNat_inj, String.utf8EncodeChar]
  change _ ↔ c.toNat = d.val.toNat
  split_ifs
  all_goals
    simp (disch := omega) only [List.mem_cons, List.not_mem_nil, or_false, same]
  all_goals omega

/-- The byte of an ASCII character is in the text only where the character is. -/
theorem ofNat_mem_utf8_iff {text : String} {c : Char} (ascii : c.toNat < 128) :
    UInt8.ofNat c.toNat ∈ utf8 text ↔ c ∈ text.toList := by
  simp [utf8_eq_flatMap, ofNat_mem_utf8EncodeChar_iff ascii]

theorem utf8EncodeChar_of_ascii {c : Char} (ascii : c.toNat < 128) :
    String.utf8EncodeChar c = [UInt8.ofNat c.toNat] := by
  have small : c.toNat ≤ 127 := Nat.le_of_lt_succ ascii
  simp [String.utf8EncodeChar, small]

/-- The byte of an ASCII character is never in the middle of another one: a text can be cut around
it. -/
theorem exists_append_of_flatMap {c : Char} (ascii : c.toNat < 128) {cs : List Char}
    {before after : Bytes}
    (bytes : cs.flatMap String.utf8EncodeChar = before ++ UInt8.ofNat c.toNat :: after) :
    ∃ left right, cs = left ++ c :: right ∧ left.flatMap String.utf8EncodeChar = before ∧
      right.flatMap String.utf8EncodeChar = after := by
  induction cs generalizing before with
  | nil => simp at bytes
  | cons d ds ih =>
    have later (rest : Bytes) (split : before = String.utf8EncodeChar d ++ rest)
        (bytes : ds.flatMap String.utf8EncodeChar = rest ++ UInt8.ofNat c.toNat :: after) :
        ∃ left right, d :: ds = left ++ c :: right ∧
          left.flatMap String.utf8EncodeChar = before ∧
          right.flatMap String.utf8EncodeChar = after := by
      obtain ⟨left, right, rfl, rfl, same⟩ := ih bytes
      exact ⟨d :: left, right, rfl, split.symm, same⟩
    rw [List.flatMap_cons, List.append_eq_append_iff] at bytes
    rcases bytes with ⟨rest, split, bytes⟩ | ⟨rest, split, bytes⟩
    · exact later rest split bytes
    · cases rest with
      | nil => exact later [] (by simpa using split.symm) (by simpa using bytes.symm)
      | cons byte rest =>
        obtain ⟨rfl, remaining⟩ := List.cons.inj bytes
        have same : c = d := by
          rw [← ofNat_mem_utf8EncodeChar_iff ascii, split]
          simp
        subst same
        obtain ⟨rfl, rfl⟩ : before = [] ∧ rest = [] := by
          simpa [utf8EncodeChar_of_ascii ascii, List.singleton_eq_append_iff] using split
        exact ⟨[], ds, rfl, rfl, remaining.symm⟩

theorem utf8_append (s t : String) : utf8 (s ++ t) = utf8 s ++ utf8 t := by
  simp [utf8_eq_flatMap]

theorem exists_append_of_utf8 {c : Char} (ascii : c.toNat < 128) {text : String}
    {before after : Bytes} (bytes : utf8 text = before ++ UInt8.ofNat c.toNat :: after) :
    ∃ left right, text = left ++ String.singleton c ++ right ∧ utf8 left = before ∧
      utf8 right = after := by
  rw [utf8_eq_flatMap] at bytes
  obtain ⟨left, right, split, rfl, rfl⟩ := exists_append_of_flatMap ascii bytes
  refine ⟨String.ofList left, String.ofList right, ?_, ?_, ?_⟩
  · simp [← String.toList_inj, split]
  · simp [utf8_eq_flatMap]
  · simp [utf8_eq_flatMap]

theorem listBefore_ofNat {m n : Nat} (small : m < 256) (smallToo : n < 256) (xs ys : Bytes) :
    listBefore (UInt8.ofNat m :: xs) (UInt8.ofNat n :: ys) = true ↔
      m < n ∨ (m = n ∧ listBefore xs ys = true) := by
  rw [listBefore_cons, ← UInt8.toNat_inj]
  simp only [KeyOrder.before, UInt8.toNat_ofNat', decide_eq_true_eq, Nat.reducePow,
    Nat.mod_eq_of_lt small, Nat.mod_eq_of_lt smallToo]

/-- The bytes of a character come before those of a later one, whatever follows. -/
theorem before_utf8EncodeChar {c d : Char} (earlier : c < d) (xs ys : Bytes) :
    listBefore (String.utf8EncodeChar c ++ xs) (String.utf8EncodeChar d ++ ys) = true := by
  have less : c.val.toNat < d.val.toNat := earlier
  have bound : d.val.toNat < 0x110000 := by
    have valid := d.valid
    simp only [UInt32.isValidChar, Nat.isValidChar] at valid
    omega
  simp only [String.utf8EncodeChar]
  generalize c.val.toNat = m at *
  generalize d.val.toNat = n at *
  have digits (k : Nat) : k / 4096 = k / 64 / 64 ∧ k / 262144 = k / 64 / 64 / 64 := by omega
  simp only [digits]
  split_ifs
  all_goals
    simp (disch := omega) only [List.cons_append, List.nil_append, listBefore_ofNat]
    omega

theorem listBefore_append_left (xs ys zs : Bytes) :
    listBefore (xs ++ ys) (xs ++ zs) = listBefore ys zs := by
  induction xs with
  | nil => rfl
  | cons x xs ih => simp [listBefore, KeyOrder.irrefl, ih]

theorem before_flatMap_utf8EncodeChar {cs ds : List Char} (earlier : cs < ds) :
    listBefore (cs.flatMap String.utf8EncodeChar) (ds.flatMap String.utf8EncodeChar) = true := by
  induction cs generalizing ds with
  | nil =>
    cases ds with
    | nil => simp at earlier
    | cons d ds =>
      obtain ⟨byte, bytes, some⟩ : ∃ byte bytes, String.utf8EncodeChar d = byte :: bytes :=
        List.exists_cons_of_ne_nil String.utf8EncodeChar_ne_nil
      simp [some, listBefore]
  | cons c cs ih =>
    cases ds with
    | nil => simp at earlier
    | cons d ds =>
      rw [List.flatMap_cons, List.flatMap_cons]
      rcases List.cons_lt_cons_iff.1 earlier with first | ⟨rfl, rest⟩
      · exact before_utf8EncodeChar first _ _
      · rw [listBefore_append_left]
        exact ih rest

/-- Texts are in the order of their bytes. -/
theorem before_utf8 (s t : String) : KeyOrder.before (utf8 s) (utf8 t) = KeyOrder.before s t := by
  have mono {s t : String} (earlier : KeyOrder.before s t = true) :
      KeyOrder.before (utf8 s) (utf8 t) = true := by
    rw [utf8_eq_flatMap, utf8_eq_flatMap]
    exact before_flatMap_utf8EncodeChar (of_decide_eq_true earlier)
  rcases KeyOrder.before_or_eq_or_after s t with first | rfl | second
  · rw [first, mono first]
  · rw [KeyOrder.irrefl, KeyOrder.irrefl]
  · rw [KeyOrder.asymm second, KeyOrder.asymm (mono second)]

end Digest

end CodeSplit
