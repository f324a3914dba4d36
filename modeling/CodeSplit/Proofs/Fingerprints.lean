import CodeSplit.Asset
import CodeSplit.Proofs.Utf8
import Mathlib.Algebra.Group.Nat.Defs
import Mathlib.Logic.Function.Basic

/-!
Fingerprints tell what they are made of. Each piece of a fingerprint shows where it ends: a text by
a byte that no text has, the others by their length or by the tag that they start with. So
fingerprints of different values are different, and where such values have one id, the digest gives
one hash for two byte sequences.
-/
namespace CodeSplit

namespace Digest

/-- Two byte sequences that the digest does not tell apart. -/
def Collide (bytes others : Bytes) : Prop := bytes ≠ others ∧ hash64 bytes = hash64 others

theorem hexDigit_inj : ∀ m < 16, ∀ n < 16, hexDigit m = hexDigit n → m = n := by decide +kernel

theorem hexDigits_inj {width m n : Nat} (small : m < 16 ^ width) (smallToo : n < 16 ^ width)
    (same : hexDigits width m = hexDigits width n) : m = n := by
  induction width generalizing m n with
  | zero => omega
  | succ width ih =>
    rw [Nat.pow_succ, Nat.mul_comm] at small smallToo
    obtain ⟨front, last⟩ := List.append_inj' same rfl
    have quotients := ih (Nat.div_lt_of_lt_mul small) (Nat.div_lt_of_lt_mul smallToo) front
    have digits := hexDigit_inj _ (Nat.mod_lt m (by decide)) _ (Nat.mod_lt n (by decide))
      (List.singleton_inj.1 last)
    omega

theorem spell_inj {left right : UInt64} (same : spell left = spell right) : left = right := by
  have digits := String.ofList_injective same
  exact UInt64.toNat_inj.1 (hexDigits_inj left.toNat_lt right.toNat_lt digits)

/-- Digests are the same of equal byte sequences and of those that collide. -/
theorem ofBytes_eq_iff {bytes others : Bytes} :
    ofBytes bytes = ofBytes others ↔ bytes = others ∨ Collide bytes others := by
  constructor
  · intro same
    by_cases equal : bytes = others
    · exact .inl equal
    · exact .inr ⟨equal, spell_inj same⟩
  · intro either
    rcases either with rfl | collide
    · rfl
    · rw [ofBytes, ofBytes, collide.2]

theorem length_wordBytes (n : UInt64) : (wordBytes n).length = 8 := by simp [wordBytes]

theorem mod_pow_eq_of_digits {width m n : Nat}
    (digits : ∀ k < width, m / 256 ^ k % 256 = n / 256 ^ k % 256) :
    m % 256 ^ width = n % 256 ^ width := by
  induction width with
  | zero => simp [Nat.mod_one]
  | succ width ih =>
    rw [Nat.mod_pow_succ, Nat.mod_pow_succ, ih fun k less => digits k (by omega),
      digits width (by omega)]

theorem wordBytes_inj {m n : UInt64} (same : wordBytes m = wordBytes n) : m = n := by
  have digit (n : UInt64) (k : Nat) (inside : k < 8) :
      (n >>> UInt64.ofNat (8 * k)).toUInt8.toNat = n.toNat / 256 ^ k % 256 := by
    have shift : 8 * k % 64 = 8 * k := by omega
    simp [UInt64.toNat_shiftRight, Nat.shiftRight_eq_div_pow, shift, Nat.pow_mul]
  have bytes := List.map_inj_left.1 same
  have equal : m.toNat % 256 ^ 8 = n.toNat % 256 ^ 8 := by
    apply mod_pow_eq_of_digits
    intro k inside
    rw [← digit m k inside, ← digit n k inside, bytes k (List.mem_range.2 inside)]
  have inside (n : UInt64) : n.toNat < 256 ^ 8 := n.toNat_lt
  rw [Nat.mod_eq_of_lt (inside m), Nat.mod_eq_of_lt (inside n)] at equal
  exact UInt64.toNat_inj.1 equal

end Digest

namespace Fingerprint

open Digest (Bytes utf8)

variable {α : Type} {piece : α → Bytes}

/-- A piece shows where it ends: if sequences that start with pieces are equal, so are the values of
the pieces, and what follows them. -/
def SelfDelimiting (piece : α → Bytes) : Prop :=
  ∀ (a b : α) (rest others : Bytes), piece a ++ rest = piece b ++ others → a = b ∧ rest = others

theorem SelfDelimiting.injective (delimits : SelfDelimiting piece) : Function.Injective piece := by
  intro a b same
  exact (delimits a b [] [] (by rw [same])).1

/-- What comes before the first closing byte is told by where that byte is. -/
theorem append_closed_inj {mark : UInt8} {xs ys rest others : Bytes} (plain : mark ∉ xs)
    (plainToo : mark ∉ ys) (same : xs ++ mark :: rest = ys ++ mark :: others) :
    xs = ys ∧ rest = others := by
  induction xs generalizing ys with
  | nil =>
    cases ys with
    | nil => exact ⟨rfl, (List.cons.inj same).2⟩
    | cons y ys =>
      obtain ⟨rfl, _⟩ := List.cons.inj same
      exact absurd List.mem_cons_self plainToo
  | cons x xs ih =>
    cases ys with
    | nil =>
      obtain ⟨rfl, _⟩ := List.cons.inj same
      exact absurd List.mem_cons_self plain
    | cons y ys =>
      obtain ⟨rfl, bodies⟩ := List.cons.inj same
      simp only [List.mem_cons, not_or] at plain plainToo
      obtain ⟨rfl, tails⟩ := ih plain.2 plainToo.2 bodies
      exact ⟨rfl, tails⟩

theorem selfDelimiting_text : SelfDelimiting text := by
  intro s t rest others same
  simp only [text, List.append_assoc, List.singleton_append] at same
  obtain ⟨bytes, tails⟩ := append_closed_inj (Digest.not_mem_utf8 s) (Digest.not_mem_utf8 t) same
  exact ⟨Digest.utf8_injective bytes, tails⟩

theorem tag_append_inj {m n : Nat} {rest others : Bytes} (small : m < 2 ^ 64)
    (smallToo : n < 2 ^ 64) (same : tag m ++ rest = tag n ++ others) :
    m = n ∧ rest = others := by
  obtain ⟨words, tails⟩ := List.append_inj same (by simp [tag, Digest.length_wordBytes])
  have numbers := congrArg UInt64.toNat (Digest.wordBytes_inj words)
  rw [UInt64.toNat_ofNat_of_lt' small, UInt64.toNat_ofNat_of_lt' smallToo] at numbers
  exact ⟨numbers, tails⟩

/-- The alternatives of a choice, by their places in a table. -/
theorem selfDelimiting_tag {table : List (String × α)} {index : α → Nat} {name : α → String}
    (listed : ∀ a, table[index a]? = some (name a, a)) (short : table.length < 2 ^ 64) :
    SelfDelimiting fun a => tag (index a) := by
  have small (a : α) : index a < 2 ^ 64 :=
    Nat.lt_trans (List.getElem?_eq_some_iff.1 (listed a)).1 short
  intro a b rest others same
  obtain ⟨places, tails⟩ := tag_append_inj (small a) (small b) same
  have entries := listed a
  rw [places, listed b] at entries
  exact ⟨(Prod.mk.inj (Option.some.inj entries)).2.symm, tails⟩

theorem selfDelimiting_flag : SelfDelimiting flag := by
  intro a b rest others same
  cases a <;> cases b <;> simp_all [flag]

theorem option_append_cases {s t : Option α} {rest others : Bytes}
    (same : option piece s ++ rest = option piece t ++ others) :
    (s = none ∧ t = none ∧ rest = others) ∨
      ∃ a b, s = some a ∧ t = some b ∧ piece a ++ rest = piece b ++ others := by
  cases s with
  | none =>
    cases t with
    | none => exact .inl ⟨rfl, rfl, List.append_cancel_left same⟩
    | some b =>
      simp only [option, List.append_assoc] at same
      exact absurd (tag_append_inj (by decide) (by decide) same).1 (by decide)
  | some a =>
    cases t with
    | none =>
      simp only [option, List.append_assoc] at same
      exact absurd (tag_append_inj (by decide) (by decide) same).1 (by decide)
    | some b =>
      simp only [option, List.append_assoc] at same
      exact .inr ⟨a, b, rfl, rfl, (tag_append_inj (by decide) (by decide) same).2⟩

theorem SelfDelimiting.option (delimits : SelfDelimiting piece) :
    SelfDelimiting (option piece) := by
  intro s t rest others same
  rcases option_append_cases same with ⟨rfl, rfl, tails⟩ | ⟨a, b, rfl, rfl, pieces⟩
  · exact ⟨rfl, tails⟩
  · obtain ⟨rfl, tails⟩ := delimits a b rest others pieces
    exact ⟨rfl, tails⟩

end Fingerprint

open Fingerprint

namespace FileType

theorem fingerprint_eq (t : FileType) :
    t.fingerprint = tag t.rank.1 ++ if t.isOther then text t.extension else [] := by
  cases t <;> simp [fingerprint, rank, isOther, extension]

theorem rank_eq (t : FileType) :
    t.rank = (t.rank.1, if t.isOther then t.extension else "") := by
  cases t <;> rfl

theorem isOther_eq (t : FileType) : t.isOther = decide (t.rank.1 = 7) := by
  cases t <;> rfl

theorem rank_lt (t : FileType) : t.rank.1 < 2 ^ 64 := by
  cases t <;> simp [rank]

theorem selfDelimiting_fingerprint : SelfDelimiting fingerprint := by
  intro a b rest others same
  rw [fingerprint_eq, fingerprint_eq, List.append_assoc, List.append_assoc] at same
  obtain ⟨ranks, same⟩ := tag_append_inj a.rank_lt b.rank_lt same
  have kinds : a.isOther = b.isOther := by rw [isOther_eq, isOther_eq, ranks]
  suffices equal : a.rank = b.rank ∧ rest = others from ⟨rank_injective a b equal.1, equal.2⟩
  rw [rank_eq a, rank_eq b, ranks]
  rw [kinds] at same ⊢
  cases other : b.isOther with
  | false => simpa [other] using same
  | true =>
    simp only [other, if_true] at same
    obtain ⟨extensions, tails⟩ := selfDelimiting_text _ _ _ _ same
    simp [extensions, tails]

end FileType

namespace Environment

theorem Context.selfDelimiting_index : SelfDelimiting fun c : Context => tag c.index := by
  have listed (c : Context) : Context.named[c.index]? = some (c.name, c) := by
    cases c <;> rfl
  exact selfDelimiting_tag listed (by decide)

theorem OutputFormat.selfDelimiting_index :
    SelfDelimiting fun f : OutputFormat => tag f.index := by
  have listed (f : OutputFormat) : OutputFormat.named[f.index]? = some (f.name, f) := by
    cases f <;> rfl
  exact selfDelimiting_tag listed (by decide)

theorem Engines.selfDelimiting_fingerprint : SelfDelimiting Engines.fingerprint := by
  intro e f rest others same
  simp only [Engines.fingerprint, List.append_assoc] at same
  obtain ⟨browsers, same⟩ := selfDelimiting_text.option _ _ _ _ same
  obtain ⟨electron, same⟩ := selfDelimiting_text.option _ _ _ _ same
  obtain ⟨node, same⟩ := selfDelimiting_text.option _ _ _ _ same
  refine ⟨?_, same⟩
  cases e
  cases f
  simp_all

theorem selfDelimiting_fingerprint : SelfDelimiting Environment.fingerprint := by
  intro e f rest others same
  simp only [Environment.fingerprint, List.append_assoc] at same
  obtain ⟨context, same⟩ := Context.selfDelimiting_index _ _ _ _ same
  obtain ⟨engines, same⟩ := Engines.selfDelimiting_fingerprint _ _ _ _ same
  obtain ⟨isLibrary, same⟩ := selfDelimiting_flag _ _ _ _ same
  obtain ⟨outputFormat, same⟩ := OutputFormat.selfDelimiting_index _ _ _ _ same
  obtain ⟨scopeHoist, same⟩ := selfDelimiting_flag _ _ _ _ same
  obtain ⟨optimize, same⟩ := selfDelimiting_flag _ _ _ _ same
  obtain ⟨singleFile, same⟩ := selfDelimiting_flag _ _ _ _ same
  refine ⟨?_, same⟩
  cases e
  cases f
  simp_all

end Environment

theorem Asset.Identity.selfDelimiting_fingerprint : SelfDelimiting Asset.Identity.fingerprint := by
  intro a b rest others same
  simp only [Asset.Identity.fingerprint, List.append_assoc] at same
  obtain ⟨environment, same⟩ := selfDelimiting_text _ _ _ _ same
  obtain ⟨path, same⟩ := selfDelimiting_text _ _ _ _ same
  obtain ⟨pipeline, same⟩ := selfDelimiting_text.option _ _ _ _ same
  obtain ⟨query, same⟩ := selfDelimiting_text.option _ _ _ _ same
  obtain ⟨fileType, same⟩ := FileType.selfDelimiting_fingerprint _ _ _ _ same
  obtain ⟨uniqueKey, same⟩ := selfDelimiting_text.option _ _ _ _ same
  refine ⟨?_, same⟩
  cases a
  cases b
  simp_all

/-- Different environments, and different identities of assets, have different fingerprints. So two
of them have one id only where the digest gives one hash for two byte sequences. -/
theorem fingerprints_are_unambiguous :
    (∀ e f : Environment, e ≠ f → e.fingerprint ≠ f.fingerprint) ∧
      (∀ a b : Asset.Identity, a ≠ b → a.fingerprint ≠ b.fingerprint) ∧
      (∀ e f : Environment, e.id = f.id ↔ e = f ∨ Digest.Collide e.fingerprint f.fingerprint) ∧
      ∀ a b : Asset.Identity, a.id = b.id ↔
        a = b ∨ Digest.Collide a.fingerprint b.fingerprint := by
  have environments := Environment.selfDelimiting_fingerprint.injective
  have identities := Asset.Identity.selfDelimiting_fingerprint.injective
  refine ⟨?_, ?_, ?_, ?_⟩
  · intro e f differ same
    exact differ (environments same)
  · intro a b differ same
    exact differ (identities same)
  · intro e f
    rw [Environment.id, Environment.id, Digest.ofBytes_eq_iff, environments.eq_iff]
  · intro a b
    rw [Asset.Identity.id, Asset.Identity.id, Digest.ofBytes_eq_iff, identities.eq_iff]

/-- Texts that would be the same if they were only joined, a text in place of another, and an empty
text in place of none. -/
theorem joined_texts_stay_apart :
    Asset.Identity.fingerprint ⟨"env", "a.js", .js, none, none, none⟩ ≠
        Asset.Identity.fingerprint ⟨"enva", ".js", .js, none, none, none⟩ ∧
      Asset.Identity.fingerprint ⟨"env", "a", .other "", none, some "q", none⟩ ≠
        Asset.Identity.fingerprint ⟨"env", "a", .other "", some "q", none, none⟩ ∧
      Environment.fingerprint { engines := { browsers := some "" } } ≠
        Environment.fingerprint {} :=
  ⟨fingerprints_are_unambiguous.2.1 _ _ (by decide),
    fingerprints_are_unambiguous.2.1 _ _ (by decide),
    fingerprints_are_unambiguous.1 _ _ (by decide)⟩

end CodeSplit
