import CodeSplit.Keyed.Order

/-!
Finite sets kept as ascending lists. The representation is canonical: two sets with the same members
are equal, and listing a set is listing it in key order.
-/
namespace CodeSplit

open KeyOrder

structure KeySet (α : Type) [KeyOrder α] where
  toList : List α
  ascending : toList.Pairwise fun a b => before a b = true

namespace KeySet

variable {α β : Type} [KeyOrder α] [KeyOrder β]

instance : Membership α (KeySet α) where
  mem s x := x ∈ s.toList

theorem mem_def {x : α} {s : KeySet α} : x ∈ s ↔ x ∈ s.toList := Iff.rfl

instance [DecidableEq α] (x : α) (s : KeySet α) : Decidable (x ∈ s) :=
  inferInstanceAs (Decidable (x ∈ s.toList))

instance [DecidableEq α] : DecidableEq (KeySet α) := fun s t =>
  decidable_of_iff (s.toList = t.toList) <| by
    cases s; cases t; simp

instance [Repr α] : Repr (KeySet α) where
  reprPrec s := reprPrec s.toList

def empty : KeySet α := ⟨[], .nil⟩

instance : EmptyCollection (KeySet α) := ⟨empty⟩

instance : Inhabited (KeySet α) := ⟨empty⟩

@[simp] theorem toList_empty : (∅ : KeySet α).toList = [] := rfl

@[simp] theorem not_mem_empty (x : α) : x ∉ (∅ : KeySet α) := List.not_mem_nil

/-- Places `x` in an ascending list that may hold it already. -/
def insertAscending (x : α) : List α → List α
  | [] => [x]
  | y :: ys =>
    if before x y then x :: y :: ys
    else if before y x then y :: insertAscending x ys
    else y :: ys

theorem mem_insertAscending {x z : α} {ys : List α} :
    z ∈ insertAscending x ys ↔ z = x ∨ z ∈ ys := by
  induction ys with
  | nil => simp [insertAscending]
  | cons y ys ih =>
    rw [insertAscending]
    split
    · simp
    · split
      · simp only [List.mem_cons, ih]
        constructor
        · rintro (h | h | h) <;> simp [h]
        · rintro (h | h | h) <;> simp [h]
      · rename_i notAfter notBefore
        have same : x = y := total (by simpa using notAfter) (by simpa using notBefore)
        simp [same]

theorem ascending_insertAscending {x : α} {ys : List α}
    (ascending : ys.Pairwise fun a b => before a b = true) :
    (insertAscending x ys).Pairwise fun a b => before a b = true := by
  induction ys with
  | nil => simp [insertAscending]
  | cons y ys ih =>
    rw [List.pairwise_cons] at ascending
    rw [insertAscending]
    split
    · rename_i earlier
      refine List.pairwise_cons.2 ⟨?_, List.pairwise_cons.2 ascending⟩
      intro z member
      rcases List.mem_cons.1 member with rfl | member
      · exact earlier
      · exact trans earlier (ascending.1 z member)
    · split
      · rename_i later
        refine List.pairwise_cons.2 ⟨?_, ih ascending.2⟩
        intro z member
        rcases mem_insertAscending.1 member with rfl | member
        · exact later
        · exact ascending.1 z member
      · exact List.pairwise_cons.2 ascending

def insert (s : KeySet α) (x : α) : KeySet α :=
  ⟨insertAscending x s.toList, ascending_insertAscending s.ascending⟩

@[simp] theorem mem_insert {s : KeySet α} {x z : α} : z ∈ s.insert x ↔ z = x ∨ z ∈ s :=
  mem_insertAscending

def ofList (xs : List α) : KeySet α := xs.foldr (fun x s => s.insert x) ∅

@[simp] theorem mem_ofList {xs : List α} {z : α} : z ∈ ofList xs ↔ z ∈ xs := by
  induction xs with
  | nil => simp [ofList]
  | cons x xs ih =>
    show z ∈ (ofList xs).insert x ↔ _
    rw [mem_insert, ih, List.mem_cons]

def singleton (x : α) : KeySet α := ⟨[x], List.pairwise_singleton ..⟩

@[simp] theorem mem_singleton {x z : α} : z ∈ singleton x ↔ z = x := by
  simp [singleton, mem_def]

def filter (s : KeySet α) (keep : α → Bool) : KeySet α :=
  ⟨s.toList.filter keep, s.ascending.filter keep⟩

@[simp] theorem mem_filter {s : KeySet α} {keep : α → Bool} {z : α} :
    z ∈ s.filter keep ↔ z ∈ s ∧ keep z = true :=
  List.mem_filter

def union (s t : KeySet α) : KeySet α := s.toList.foldr (fun x u => u.insert x) t

@[simp] theorem mem_union {s t : KeySet α} {z : α} : z ∈ s.union t ↔ z ∈ s ∨ z ∈ t := by
  obtain ⟨xs, ascending⟩ := s
  show z ∈ xs.foldr (fun x u => u.insert x) t ↔ z ∈ xs ∨ z ∈ t
  clear ascending
  induction xs with
  | nil => simp
  | cons x xs ih => simp [ih, or_assoc]

def inter [DecidableEq α] (s t : KeySet α) : KeySet α := s.filter fun x => decide (x ∈ t)

@[simp] theorem mem_inter [DecidableEq α] {s t : KeySet α} {z : α} :
    z ∈ s.inter t ↔ z ∈ s ∧ z ∈ t := by
  simp [inter]

def diff [DecidableEq α] (s t : KeySet α) : KeySet α := s.filter fun x => decide (x ∉ t)

@[simp] theorem mem_diff [DecidableEq α] {s t : KeySet α} {z : α} :
    z ∈ s.diff t ↔ z ∈ s ∧ z ∉ t := by
  simp [diff]

def erase [DecidableEq α] (s : KeySet α) (x : α) : KeySet α := s.filter fun y => decide (y ≠ x)

@[simp] theorem mem_erase [DecidableEq α] {s : KeySet α} {x z : α} :
    z ∈ s.erase x ↔ z ∈ s ∧ z ≠ x := by
  simp [erase]

def isEmpty (s : KeySet α) : Bool := s.toList.isEmpty

def size (s : KeySet α) : Nat := s.toList.length

def meets [DecidableEq α] (s t : KeySet α) : Bool := s.toList.any fun x => decide (x ∈ t)

theorem meets_iff [DecidableEq α] {s t : KeySet α} :
    s.meets t = true ↔ ∃ x, x ∈ s ∧ x ∈ t := by
  simp [meets, mem_def]

def unions (sets : List (KeySet α)) : KeySet α := sets.foldr union ∅

@[simp] theorem mem_unions {sets : List (KeySet α)} {z : α} :
    z ∈ unions sets ↔ ∃ s ∈ sets, z ∈ s := by
  induction sets with
  | nil => simp [unions]
  | cons s sets ih =>
    show z ∈ s.union (unions sets) ↔ _
    simp [ih]

/-- The intersection of a list of sets; none for the empty list. -/
def intersection? [DecidableEq α] : List (KeySet α) → Option (KeySet α)
  | [] => none
  | s :: sets => some (sets.foldl inter s)

theorem eq_of_ascending {xs ys : List α}
    (left : xs.Pairwise fun a b => before a b = true)
    (right : ys.Pairwise fun a b => before a b = true)
    (same : ∀ z, z ∈ xs ↔ z ∈ ys) : xs = ys := by
  induction xs generalizing ys with
  | nil =>
    cases ys with
    | nil => rfl
    | cons y ys => exact absurd ((same y).2 List.mem_cons_self) List.not_mem_nil
  | cons x xs ih =>
    cases ys with
    | nil => exact absurd ((same x).1 List.mem_cons_self) List.not_mem_nil
    | cons y ys =>
      rw [List.pairwise_cons] at left right
      have head : x = y := by
        rcases List.mem_cons.1 ((same x).1 List.mem_cons_self) with h | h
        · exact h
        · rcases List.mem_cons.1 ((same y).2 List.mem_cons_self) with k | k
          · exact k.symm
          · exact absurd rfl (ne_of_before (trans (right.1 x h) (left.1 y k)))
      subst head
      have tail : ∀ z, z ∈ xs ↔ z ∈ ys := by
        intro z
        have whole := same z
        rw [List.mem_cons, List.mem_cons] at whole
        constructor
        · intro member
          rcases whole.1 (.inr member) with h | h
          · exact absurd h.symm (ne_of_before (left.1 z member))
          · exact h
        · intro member
          rcases whole.2 (.inr member) with h | h
          · exact absurd h.symm (ne_of_before (right.1 z member))
          · exact h
      rw [ih left.2 right.2 tail]

/-- Sets with the same members are equal. -/
theorem ext {s t : KeySet α} (same : ∀ z, z ∈ s ↔ z ∈ t) : s = t := by
  obtain ⟨xs, left⟩ := s
  obtain ⟨ys, right⟩ := t
  have equal : xs = ys := eq_of_ascending left right same
  subst equal
  rfl

end KeySet

end CodeSplit
