import CodeSplit.Keyed.Map
import Mathlib.Data.List.Nodup

/-!
Members of sets and look-ups of maps that are built from lists. Arranged lists, and maps whose keys
have one value each, do not depend on the order of what they are built from.
-/
namespace CodeSplit

section Naming

variable {α β : Type}

/-- Among elements with distinct names, looking for a name finds the place that has it. -/
theorem findIdx?_eq_some_iff_of_nodup [DecidableEq β] {name : α → β} {xs : List α} {k : Nat} {b : β}
    (distinct : (xs.map name).Nodup) :
    (xs.findIdx? fun x => name x = b) = some k ↔ ∃ x, xs[k]? = some x ∧ name x = b := by
  rw [List.findIdx?_eq_some_iff_getElem]
  constructor
  · rintro ⟨inside, same, _⟩
    exact ⟨xs[k], List.getElem?_eq_getElem inside, of_decide_eq_true same⟩
  · rintro ⟨x, found, same⟩
    obtain ⟨inside, rfl⟩ := List.getElem?_eq_some_iff.1 found
    refine ⟨inside, decide_eq_true same, ?_⟩
    intro j earlier
    have apart := List.pairwise_iff_getElem.1 distinct j k
      (by simpa using Nat.lt_trans earlier inside) (by simpa using inside) earlier
    simpa [same] using apart

end Naming

section Arranging

variable {α κ : Type} [KeyOrder κ] {key : α → κ}

/-- What comes no earlier than something that comes no earlier than `a` comes no earlier than `a`.
-/
theorem KeyOrder.not_before_trans {a b c : κ} (first : before b a = false)
    (second : before c b = false) : before c a = false := by
  cases earlier : before c a with
  | false => rfl
  | true =>
    rcases before_or_eq_or_after a b with h | rfl | h
    · rw [trans earlier h] at second
      cases second
    · rw [earlier] at second
      cases second
    · rw [h] at first
      cases first

/-- No element comes after one that its key puts behind it. -/
def InOrder (key : α → κ) (xs : List α) : Prop :=
  xs.Pairwise fun a b => KeyOrder.before (key b) (key a) = false

theorem InOrder.insertInOrder {x : α} {xs : List α} (ordered : InOrder key xs) :
    InOrder key (insertInOrder (fun a b => KeyOrder.before (key a) (key b)) x xs) := by
  unfold InOrder at *
  induction xs with
  | nil => simp [CodeSplit.insertInOrder]
  | cons y ys ih =>
    obtain ⟨first, rest⟩ := List.pairwise_cons.1 ordered
    rw [CodeSplit.insertInOrder]
    by_cases earlier : KeyOrder.before (key y) (key x) = true
    · rw [if_pos earlier, List.pairwise_cons]
      refine ⟨?_, ih rest⟩
      intro z member
      rcases List.mem_cons.1 ((perm_insertInOrder _ x ys).mem_iff.1 member) with rfl | member
      · exact KeyOrder.asymm earlier
      · exact first z member
    · rw [if_neg earlier, List.pairwise_cons]
      refine ⟨?_, ordered⟩
      intro z member
      have head : KeyOrder.before (key y) (key x) = false := by simpa using earlier
      rcases List.mem_cons.1 member with rfl | member
      · exact head
      · exact KeyOrder.not_before_trans head (first z member)

theorem inOrder_arrange (xs : List α) :
    InOrder key (arrange (fun a b => KeyOrder.before (key a) (key b)) xs) := by
  induction xs with
  | nil => exact List.Pairwise.nil
  | cons x xs ih => exact ih.insertInOrder

/-- Where the keys tell the elements apart, arranging forgets the order they came in. -/
theorem arrange_eq_of_perm {xs ys : List α} (perm : xs.Perm ys)
    (apart : ∀ a ∈ xs, ∀ b ∈ xs, key a = key b → a = b) :
    arrange (fun a b => KeyOrder.before (key a) (key b)) xs =
      arrange (fun a b => KeyOrder.before (key a) (key b)) ys := by
  refine List.Perm.eq_of_pairwise ?_ (inOrder_arrange xs) (inOrder_arrange ys)
    (((perm_arrange _ xs).trans perm).trans (perm_arrange _ ys).symm)
  intro a b left right below above
  refine apart a ((perm_arrange _ xs).mem_iff.1 left) b ?_ (KeyOrder.total above below)
  exact perm.mem_iff.2 ((perm_arrange _ ys).mem_iff.1 right)

theorem insertInOrder_map {β : Type} (f : β → α) (before : α → α → Bool) (x : β) (xs : List β) :
    (insertInOrder (fun a b => before (f a) (f b)) x xs).map f =
      insertInOrder before (f x) (xs.map f) := by
  induction xs with
  | nil => rfl
  | cons y ys ih =>
    rw [List.map_cons, insertInOrder, insertInOrder]
    split
    · rw [List.map_cons, ih]
    · rfl

theorem arrange_map {β : Type} (f : β → α) (before : α → α → Bool) (xs : List β) :
    (arrange (fun a b => before (f a) (f b)) xs).map f = arrange before (xs.map f) := by
  induction xs with
  | nil => rfl
  | cons x xs ih =>
    have rest := insertInOrder_map f before x (arrange (fun a b => before (f a) (f b)) xs)
    rw [ih] at rest
    exact rest

end Arranging

namespace KeySet

variable {α β : Type} [KeyOrder α]

theorem nodup_toList (s : KeySet α) : s.toList.Nodup :=
  s.ascending.imp fun earlier => KeyOrder.ne_of_before earlier

theorem isEmpty_iff {s : KeySet α} : s.isEmpty = true ↔ ∀ z, z ∉ s := by
  simp only [isEmpty, List.isEmpty_iff, List.eq_nil_iff_forall_not_mem, mem_def]

theorem mem_unions_map {xs : List β} {f : β → KeySet α} {z : α} :
    z ∈ unions (xs.map f) ↔ ∃ x ∈ xs, z ∈ f x := by
  simp

theorem mem_foldl_union (xs : List β) (f : β → KeySet α) (s : KeySet α) {z : α} :
    z ∈ xs.foldl (fun s x => s.union (f x)) s ↔ z ∈ s ∨ ∃ x ∈ xs, z ∈ f x := by
  induction xs generalizing s with
  | nil => simp
  | cons x xs ih =>
    rw [List.foldl_cons, ih, mem_union, List.exists_mem_cons_iff, or_assoc]

theorem mem_foldl_insert (xs : List α) (s : KeySet α) {z : α} :
    z ∈ xs.foldl KeySet.insert s ↔ z ∈ s ∨ z ∈ xs := by
  induction xs generalizing s with
  | nil => simp
  | cons x xs ih =>
    rw [List.foldl_cons, ih, mem_insert, List.mem_cons, or_assoc, or_left_comm]

variable [DecidableEq α]

theorem mem_foldl_inter (xs : List β) (f : β → KeySet α) (s : KeySet α) {z : α} :
    z ∈ xs.foldl (fun s x => s.inter (f x)) s ↔ z ∈ s ∧ ∀ x ∈ xs, z ∈ f x := by
  induction xs generalizing s with
  | nil => simp
  | cons x xs ih =>
    rw [List.foldl_cons, ih, mem_inter, List.forall_mem_cons, and_assoc]

/-- The intersection of no sets is taken to be empty. -/
theorem mem_intersection?_getD {sets : List (KeySet α)} {z : α} :
    z ∈ (intersection? sets).getD ∅ ↔ sets ≠ [] ∧ ∀ s ∈ sets, z ∈ s := by
  cases sets with
  | nil => simp [intersection?]
  | cons s sets =>
    have folded := mem_foldl_inter sets id s (z := z)
    simp only [id] at folded
    show z ∈ sets.foldl (fun s t => s.inter t) s ↔ _
    rw [folded, List.forall_mem_cons]
    simp

end KeySet

namespace KeyMap

variable {κ ν : Type} [KeyOrder κ]

theorem nodup_keys (m : KeyMap κ ν) : m.keys.Nodup := by
  unfold keys List.Nodup
  rw [List.pairwise_map]
  exact m.ascending.imp fun earlier => KeyOrder.ne_of_before earlier

@[simp] theorem keys_map {μ : Type} (m : KeyMap κ ν) (f : κ → ν → μ) : (m.map f).keys = m.keys := by
  simp [keys, map]

variable [DecidableEq κ]

theorem get?_foldl_insert (f : κ → Option ν) (entries : List (κ × ν)) (m : KeyMap κ ν)
    (keyed : ∀ e ∈ entries, f e.1 = some e.2) (k : κ) :
    (entries.foldl (fun m e => m.insert e.1 e.2) m).get? k =
      if k ∈ entries.map Prod.fst then f k else m.get? k := by
  induction entries generalizing m with
  | nil => simp
  | cons e entries ih =>
    rw [List.foldl_cons, ih _ fun d member => keyed d (List.mem_cons_of_mem _ member)]
    by_cases later : k ∈ entries.map Prod.fst
    · simp [later]
    · by_cases now : e.1 = k
      · subst now
        simp [later, keyed e List.mem_cons_self]
      · simp [later, now, Ne.symm now]

theorem get?_foldl_insert_const (ks : List κ) (v : ν) (m : KeyMap κ ν) (k : κ) :
    (ks.foldl (fun m k => m.insert k v) m).get? k = if k ∈ ks then some v else m.get? k := by
  have folded := get?_foldl_insert (fun _ => some v) (ks.map (·, v)) m (by simp) k
  rw [List.foldl_map] at folded
  simpa using folded

/-- A list whose values are a function of the keys makes a map of that function. -/
theorem get?_ofList_of_keyed (f : κ → Option ν) {entries : List (κ × ν)}
    (keyed : ∀ e ∈ entries, f e.1 = some e.2) (k : κ) :
    (ofList entries).get? k = if k ∈ entries.map Prod.fst then f k else none :=
  get?_foldl_insert f entries ∅ keyed k

theorem get?_ofList_map (f : κ → ν) (ks : List κ) (k : κ) :
    (ofList (ks.map fun k => (k, f k))).get? k = if k ∈ ks then some (f k) else none := by
  rw [get?_ofList_of_keyed (fun k => some (f k)) (by simp)]
  simp

theorem mem_values_iff {m : KeyMap κ ν} {v : ν} : v ∈ m.values ↔ ∃ k, m.get? k = some v := by
  simp only [values, List.mem_map, get?_eq_some_iff]
  constructor
  · rintro ⟨⟨k, w⟩, member, rfl⟩
    exact ⟨k, member⟩
  · rintro ⟨k, member⟩
    exact ⟨(k, v), member, rfl⟩

/-- The keys whose sets have an element. -/
theorem mem_ofList_filter {α : Type} [KeyOrder α] [DecidableEq α] {m : KeyMap κ (KeySet α)} {k : κ}
    {x : α} :
    k ∈ KeySet.ofList ((m.entries.filter fun e => decide (x ∈ e.2)).map Prod.fst) ↔
      x ∈ m.setAt k := by
  simp only [KeySet.mem_ofList, List.mem_map, List.mem_filter, decide_eq_true_eq, mem_setAt_iff]
  constructor
  · intro listed
    obtain ⟨⟨key, s⟩, ⟨entry, member⟩, rfl⟩ := listed
    exact ⟨s, get?_eq_some_iff.2 entry, member⟩
  · intro found
    obtain ⟨s, entry, member⟩ := found
    exact ⟨(k, s), ⟨get?_eq_some_iff.1 entry, member⟩, rfl⟩

end KeyMap

end CodeSplit
