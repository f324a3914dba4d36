/-!
Strict total orders on the keys of the library's sets and maps. Every answer that lists a set or a
map lists it in this order, so the order is part of the behaviour.
-/
namespace CodeSplit

/-- A decidable strict total order. -/
class KeyOrder (κ : Type) where
  before : κ → κ → Bool
  irrefl (a : κ) : before a a = false
  trans {a b c : κ} : before a b = true → before b c = true → before a c = true
  total {a b : κ} : before a b = false → before b a = false → a = b

namespace KeyOrder

variable {κ ι : Type} [KeyOrder κ] [KeyOrder ι]

theorem ne_of_before {a b : κ} (h : before a b = true) : a ≠ b := by
  intro same
  rw [same, irrefl] at h
  cases h

theorem asymm {a b : κ} (h : before a b = true) : before b a = false := by
  cases flipped : before b a with
  | false => rfl
  | true =>
    have cyclic := trans h flipped
    rw [irrefl] at cyclic
    cases cyclic

theorem before_or_eq_or_after (a b : κ) : before a b = true ∨ a = b ∨ before b a = true := by
  cases left : before a b with
  | true => exact .inl rfl
  | false =>
    cases right : before b a with
    | true => exact .inr (.inr rfl)
    | false => exact .inr (.inl (total left right))

/-- The order of `ι` along an injective key. -/
@[reducible] def along {α : Type} (key : α → ι) (injective : ∀ a b, key a = key b → a = b) :
    KeyOrder α where
  before a b := before (key a) (key b)
  irrefl a := irrefl (key a)
  trans := trans
  total left right := injective _ _ (total left right)

instance : KeyOrder Nat where
  before a b := decide (a < b)
  irrefl a := by simp
  trans := by
    intro a b c first second
    simp only [decide_eq_true_eq] at *
    omega
  total := by
    intro a b left right
    simp only [decide_eq_false_iff_not] at *
    omega

/-- Texts are ordered by code points, which is also the order of their UTF-8 bytes. -/
instance : KeyOrder String where
  before a b := decide (a < b)
  irrefl a := by simp
  trans := by
    intro a b c first second
    simp only [decide_eq_true_eq] at *
    exact String.lt_trans first second
  total := by
    intro a b left right
    simp only [decide_eq_false_iff_not] at *
    exact String.le_antisymm right left

/-- Pairs are ordered by the first component, then by the second. -/
instance : KeyOrder (κ × ι) where
  before p q := before p.1 q.1 || (!before q.1 p.1 && before p.2 q.2)
  irrefl p := by simp [irrefl]
  trans := by
    intro p q r first second
    simp only [Bool.or_eq_true, Bool.and_eq_true, Bool.not_eq_true'] at *
    rcases first with first | ⟨firstBack, firstSnd⟩
    · rcases second with second | ⟨secondBack, secondSnd⟩
      · exact .inl (trans first second)
      · left
        rcases before_or_eq_or_after q.1 r.1 with h | h | h
        · exact trans first h
        · exact h ▸ first
        · rw [secondBack] at h; cases h
    · rcases second with second | ⟨secondBack, secondSnd⟩
      · left
        rcases before_or_eq_or_after p.1 q.1 with h | h | h
        · exact trans h second
        · exact h ▸ second
        · rw [firstBack] at h; cases h
      · rcases before_or_eq_or_after p.1 r.1 with h | h | h
        · exact .inl h
        · exact .inr ⟨by rw [h, irrefl], trans firstSnd secondSnd⟩
        · exfalso
          rcases before_or_eq_or_after p.1 q.1 with e | e | e
          · have := trans h e
            rw [secondBack] at this; cases this
          · rw [e, secondBack] at h; cases h
          · rw [firstBack] at e; cases e
  total := by
    intro p q left right
    simp only [Bool.or_eq_false_iff, Bool.and_eq_false_iff, Bool.not_eq_false'] at *
    have fst : p.1 = q.1 := total left.1 right.1
    have snd : p.2 = q.2 := by
      refine total ?_ ?_
      · rcases left.2 with h | h
        · rw [right.1] at h; cases h
        · exact h
      · rcases right.2 with h | h
        · rw [left.1] at h; cases h
        · exact h
    exact Prod.ext fst snd

/-- Lexicographic order of lists; a proper initial segment comes first. -/
def listBefore : List κ → List κ → Bool
  | [], [] => false
  | [], _ :: _ => true
  | _ :: _, [] => false
  | a :: as, b :: bs => before a b || (!before b a && listBefore as bs)

theorem listBefore_irrefl (l : List κ) : listBefore l l = false := by
  induction l with
  | nil => rfl
  | cons a as ih => simp [listBefore, irrefl, ih]

theorem listBefore_cons {a b : κ} {as bs : List κ} :
    listBefore (a :: as) (b :: bs) = true ↔
      before a b = true ∨ (a = b ∧ listBefore as bs = true) := by
  simp only [listBefore, Bool.or_eq_true, Bool.and_eq_true, Bool.not_eq_true']
  constructor
  · rintro (h | ⟨back, rest⟩)
    · exact .inl h
    · rcases before_or_eq_or_after a b with h | h | h
      · exact .inl h
      · exact .inr ⟨h, rest⟩
      · rw [back] at h; cases h
  · rintro (h | ⟨rfl, rest⟩)
    · exact .inl h
    · exact .inr ⟨irrefl a, rest⟩

theorem listBefore_trans {l m n : List κ} (first : listBefore l m = true)
    (second : listBefore m n = true) : listBefore l n = true := by
  induction l generalizing m n with
  | nil =>
    cases n with
    | nil =>
      cases m with
      | nil => exact second
      | cons _ _ => simp [listBefore] at second
    | cons _ _ => rfl
  | cons a as ih =>
    cases m with
    | nil => simp [listBefore] at first
    | cons b bs =>
      cases n with
      | nil => simp [listBefore] at second
      | cons c cs =>
        rw [listBefore_cons] at *
        rcases first with h | ⟨rfl, rest⟩
        · rcases second with k | ⟨rfl, _⟩
          · exact .inl (trans h k)
          · exact .inl h
        · rcases second with k | ⟨rfl, rest'⟩
          · exact .inl k
          · exact .inr ⟨rfl, ih rest rest'⟩

theorem listBefore_total {l m : List κ} (left : listBefore l m = false)
    (right : listBefore m l = false) : l = m := by
  induction l generalizing m with
  | nil =>
    cases m with
    | nil => rfl
    | cons _ _ => simp [listBefore] at left
  | cons a as ih =>
    cases m with
    | nil => simp [listBefore] at right
    | cons b bs =>
      simp only [listBefore, Bool.or_eq_false_iff, Bool.and_eq_false_iff, Bool.not_eq_false'] at *
      have head : a = b := total left.1 right.1
      subst head
      have tail : as = bs := by
        refine ih ?_ ?_
        · rcases left.2 with h | h
          · rw [irrefl] at h; cases h
          · exact h
        · rcases right.2 with h | h
          · rw [irrefl] at h; cases h
          · exact h
      rw [tail]

instance : KeyOrder (List κ) where
  before := listBefore
  irrefl := listBefore_irrefl
  trans := listBefore_trans
  total := listBefore_total

end KeyOrder

/-- Sorts by a strict order and keeps equal elements in the order they had. -/
def insertInOrder {α : Type} (before : α → α → Bool) (x : α) : List α → List α
  | [] => [x]
  | y :: ys => if before y x then y :: insertInOrder before x ys else x :: y :: ys

@[inherit_doc insertInOrder]
def arrange {α : Type} (before : α → α → Bool) (xs : List α) : List α :=
  xs.foldr (insertInOrder before) []

theorem perm_insertInOrder {α : Type} (before : α → α → Bool) (x : α) (xs : List α) :
    (insertInOrder before x xs).Perm (x :: xs) := by
  induction xs with
  | nil => exact .refl _
  | cons y ys ih =>
    rw [insertInOrder]
    split
    · exact (ih.cons y).trans (.swap x y ys)
    · exact .refl _

theorem perm_arrange {α : Type} (before : α → α → Bool) (xs : List α) :
    (arrange before xs).Perm xs := by
  induction xs with
  | nil => exact .refl _
  | cons x xs ih => exact (perm_insertInOrder before x _).trans (ih.cons x)

end CodeSplit
