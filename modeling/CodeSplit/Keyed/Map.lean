import CodeSplit.Keyed.Set

/-!
Finite maps kept as lists of entries in ascending key order. As for sets the representation is
canonical: maps with the same look-ups are equal.
-/
namespace CodeSplit

open KeyOrder

structure KeyMap (κ ν : Type) [KeyOrder κ] where
  entries : List (κ × ν)
  ascending : entries.Pairwise fun p q => before p.1 q.1 = true

namespace KeyMap

variable {κ ν μ : Type} [KeyOrder κ]

instance [DecidableEq κ] [DecidableEq ν] : DecidableEq (KeyMap κ ν) := fun m n =>
  decidable_of_iff (m.entries = n.entries) <| by
    cases m; cases n; simp

instance [Repr κ] [Repr ν] : Repr (KeyMap κ ν) where
  reprPrec m := reprPrec m.entries

def empty : KeyMap κ ν := ⟨[], .nil⟩

instance : EmptyCollection (KeyMap κ ν) := ⟨empty⟩

instance : Inhabited (KeyMap κ ν) := ⟨empty⟩

def keys (m : KeyMap κ ν) : List κ := m.entries.map Prod.fst

def values (m : KeyMap κ ν) : List ν := m.entries.map Prod.snd

def size (m : KeyMap κ ν) : Nat := m.entries.length

def isEmpty (m : KeyMap κ ν) : Bool := m.entries.isEmpty

def lookup [DecidableEq κ] (k : κ) : List (κ × ν) → Option ν
  | [] => none
  | (k', v) :: rest => if k' = k then some v else lookup k rest

def get? [DecidableEq κ] (m : KeyMap κ ν) (k : κ) : Option ν := lookup k m.entries

def contains [DecidableEq κ] (m : KeyMap κ ν) (k : κ) : Bool := (m.get? k).isSome

/-- Writes the value of `k` in an ascending list of entries. -/
def insertAscending (k : κ) (v : ν) : List (κ × ν) → List (κ × ν)
  | [] => [(k, v)]
  | (k', v') :: rest =>
    if before k k' then (k, v) :: (k', v') :: rest
    else if before k' k then (k', v') :: insertAscending k v rest
    else (k, v) :: rest

theorem mem_insertAscending {k : κ} {v : ν} {rest : List (κ × ν)} {p : κ × ν}
    (member : p ∈ insertAscending k v rest) : p = (k, v) ∨ p ∈ rest := by
  induction rest with
  | nil => simpa [insertAscending] using member
  | cons q rest ih =>
    rw [insertAscending] at member
    split at member
    · simpa using member
    · split at member
      · rcases List.mem_cons.1 member with h | h
        · exact .inr (by simp [h])
        · rcases ih h with h | h
          · exact .inl h
          · exact .inr (List.mem_cons_of_mem _ h)
      · rcases List.mem_cons.1 member with h | h
        · exact .inl h
        · exact .inr (List.mem_cons_of_mem _ h)

theorem ascending_insertAscending {k : κ} {v : ν} {rest : List (κ × ν)}
    (ascending : rest.Pairwise fun p q => before p.1 q.1 = true) :
    (insertAscending k v rest).Pairwise fun p q => before p.1 q.1 = true := by
  induction rest with
  | nil => simp [insertAscending]
  | cons q rest ih =>
    rw [List.pairwise_cons] at ascending
    rw [insertAscending]
    split
    · rename_i earlier
      refine List.pairwise_cons.2 ⟨?_, List.pairwise_cons.2 ascending⟩
      intro p member
      rcases List.mem_cons.1 member with rfl | member
      · exact earlier
      · exact trans earlier (ascending.1 p member)
    · split
      · rename_i later
        refine List.pairwise_cons.2 ⟨?_, ih ascending.2⟩
        intro p member
        rcases mem_insertAscending member with rfl | member
        · exact later
        · exact ascending.1 p member
      · rename_i notAfter notBefore
        have same : k = q.1 := total (by simpa using notAfter) (by simpa using notBefore)
        refine List.pairwise_cons.2 ⟨?_, ascending.2⟩
        intro p member
        rw [same]
        exact ascending.1 p member

def insert (m : KeyMap κ ν) (k : κ) (v : ν) : KeyMap κ ν :=
  ⟨insertAscending k v m.entries, ascending_insertAscending m.ascending⟩

def filter (m : KeyMap κ ν) (keep : κ → ν → Bool) : KeyMap κ ν :=
  ⟨m.entries.filter fun e => keep e.1 e.2, m.ascending.filter _⟩

def erase [DecidableEq κ] (m : KeyMap κ ν) (k : κ) : KeyMap κ ν :=
  m.filter fun k' _ => decide (k' ≠ k)

def map (m : KeyMap κ ν) (f : κ → ν → μ) : KeyMap κ μ :=
  ⟨m.entries.map fun e => (e.1, f e.1 e.2), List.pairwise_map.2 m.ascending⟩

/-- Changes the value of `k`, taking `initial` where there is none. -/
def update [DecidableEq κ] (m : KeyMap κ ν) (k : κ) (initial : ν) (f : ν → ν) : KeyMap κ ν :=
  m.insert k (f ((m.get? k).getD initial))

/-- Changes the value of `k` where there is one. -/
def modify [DecidableEq κ] (m : KeyMap κ ν) (k : κ) (f : ν → ν) : KeyMap κ ν :=
  m.map fun k' v => if k' = k then f v else v

/-- Later entries replace earlier ones of the same key. -/
def ofList (entries : List (κ × ν)) : KeyMap κ ν :=
  entries.foldl (fun m e => m.insert e.1 e.2) ∅

section Lemmas

variable [DecidableEq κ]

@[simp] theorem get?_empty (k : κ) : (∅ : KeyMap κ ν).get? k = none := rfl

theorem lookup_insertAscending (k k' : κ) (v : ν) (rest : List (κ × ν)) :
    lookup k' (insertAscending k v rest) = if k = k' then some v else lookup k' rest := by
  induction rest with
  | nil => simp [insertAscending, lookup]
  | cons q rest ih =>
    obtain ⟨key, value⟩ := q
    rw [insertAscending]
    split
    · simp [lookup]
    · split
      · rename_i later
        rw [lookup, ih]
        by_cases hk : k = k'
        · subst hk
          simp [ne_of_before later]
        · simp [lookup, hk]
      · rename_i notAfter notBefore
        have same : k = key := total (by simpa using notAfter) (by simpa using notBefore)
        subst same
        by_cases hk : k = k' <;> simp [lookup, hk]

@[simp] theorem get?_insert (m : KeyMap κ ν) (k k' : κ) (v : ν) :
    (m.insert k v).get? k' = if k = k' then some v else m.get? k' :=
  lookup_insertAscending k k' v m.entries

omit [KeyOrder κ] in
theorem lookup_map (k : κ) (f : κ → ν → μ) (entries : List (κ × ν)) :
    lookup k (entries.map fun e => (e.1, f e.1 e.2)) = (lookup k entries).map (f k) := by
  induction entries with
  | nil => rfl
  | cons e entries ih =>
    by_cases h : e.1 = k
    · simp [lookup, h]
    · simp [lookup, h, ih]

@[simp] theorem get?_map (m : KeyMap κ ν) (f : κ → ν → μ) (k : κ) :
    (m.map f).get? k = (m.get? k).map (f k) :=
  lookup_map k f m.entries

@[simp] theorem get?_update (m : KeyMap κ ν) (k k' : κ) (initial : ν) (f : ν → ν) :
    (m.update k initial f).get? k' =
      if k = k' then some (f ((m.get? k).getD initial)) else m.get? k' :=
  get?_insert m k k' _

@[simp] theorem get?_modify (m : KeyMap κ ν) (k k' : κ) (f : ν → ν) :
    (m.modify k f).get? k' = if k' = k then (m.get? k').map f else m.get? k' := by
  rw [modify, get?_map]
  by_cases h : k' = k
  · simp [h]
  · simp [h]

omit [KeyOrder κ] in
theorem mem_of_lookup {k : κ} {v : ν} {entries : List (κ × ν)}
    (found : lookup k entries = some v) : (k, v) ∈ entries := by
  induction entries with
  | nil => cases found
  | cons e entries ih =>
    obtain ⟨key, value⟩ := e
    rw [lookup] at found
    split at found
    · rename_i same
      cases found
      subst same
      exact List.mem_cons_self
    · exact List.mem_cons_of_mem _ (ih found)

theorem lookup_of_mem {k : κ} {v : ν} {entries : List (κ × ν)}
    (ascending : entries.Pairwise fun p q => before p.1 q.1 = true)
    (member : (k, v) ∈ entries) : lookup k entries = some v := by
  induction entries with
  | nil => cases member
  | cons e entries ih =>
    rw [List.pairwise_cons] at ascending
    rcases List.mem_cons.1 member with rfl | member
    · simp [lookup]
    · have apart : e.1 ≠ k := ne_of_before (ascending.1 _ member)
      simp only [lookup, if_neg apart]
      exact ih ascending.2 member

theorem get?_eq_some_iff {m : KeyMap κ ν} {k : κ} {v : ν} :
    m.get? k = some v ↔ (k, v) ∈ m.entries :=
  ⟨mem_of_lookup, lookup_of_mem m.ascending⟩

theorem mem_keys_iff {m : KeyMap κ ν} {k : κ} : k ∈ m.keys ↔ ∃ v, m.get? k = some v := by
  simp only [keys, List.mem_map, get?_eq_some_iff]
  constructor
  · rintro ⟨⟨key, value⟩, member, rfl⟩
    exact ⟨value, member⟩
  · rintro ⟨v, member⟩
    exact ⟨(k, v), member, rfl⟩

theorem get?_filter (m : KeyMap κ ν) (keep : κ → ν → Bool) (k : κ) :
    (m.filter keep).get? k = (m.get? k).filter (keep k) := by
  cases found : m.get? k with
  | none =>
    cases kept : (m.filter keep).get? k with
    | none => rfl
    | some v =>
      have member := get?_eq_some_iff.1 kept
      have kept : (k, v) ∈ m.entries := (List.mem_filter.1 member).1
      rw [get?_eq_some_iff.2 kept] at found
      cases found
  | some v =>
    have member := get?_eq_some_iff.1 found
    cases decision : keep k v with
    | true =>
      have kept : (k, v) ∈ (m.filter keep).entries := List.mem_filter.2 ⟨member, decision⟩
      rw [get?_eq_some_iff.2 kept, Option.filter_some, if_pos decision]
    | false =>
      cases kept : (m.filter keep).get? k with
      | none => rw [Option.filter_some, decision]; rfl
      | some w =>
        have split := List.mem_filter.1 (get?_eq_some_iff.1 kept)
        have same : w = v := by
          have again := get?_eq_some_iff.2 split.1
          rw [found] at again
          exact (Option.some.inj again).symm
        subst same
        simp [decision] at split

@[simp] theorem get?_erase (m : KeyMap κ ν) (k k' : κ) :
    (m.erase k).get? k' = if k' = k then none else m.get? k' := by
  rw [erase, get?_filter]
  by_cases h : k' = k
  · subst h
    cases m.get? k' <;> simp
  · cases m.get? k' <;> simp [h]

/-- Maps with the same look-ups are equal. -/
theorem ext {m n : KeyMap κ ν} (same : ∀ k, m.get? k = n.get? k) : m = n := by
  obtain ⟨left, leftAsc⟩ := m
  obtain ⟨right, rightAsc⟩ := n
  have members : ∀ p, p ∈ left ↔ p ∈ right := by
    rintro ⟨k, v⟩
    have agree := same k
    constructor
    · intro member
      exact mem_of_lookup (agree.symm.trans (lookup_of_mem leftAsc member))
    · intro member
      exact mem_of_lookup (agree.trans (lookup_of_mem rightAsc member))
  have equal : left = right := by
    clear same
    induction left generalizing right with
    | nil =>
      cases right with
      | nil => rfl
      | cons q right => exact absurd ((members q).2 List.mem_cons_self) List.not_mem_nil
    | cons p left ih =>
      cases right with
      | nil => exact absurd ((members p).1 List.mem_cons_self) List.not_mem_nil
      | cons q right =>
        rw [List.pairwise_cons] at leftAsc rightAsc
        have head : p = q := by
          rcases List.mem_cons.1 ((members p).1 List.mem_cons_self) with h | h
          · exact h
          · rcases List.mem_cons.1 ((members q).2 List.mem_cons_self) with k | k
            · exact k.symm
            · exact absurd rfl (ne_of_before (trans (rightAsc.1 p h) (leftAsc.1 q k)))
        subst head
        have tail : ∀ z, z ∈ left ↔ z ∈ right := by
          intro z
          have whole := members z
          rw [List.mem_cons, List.mem_cons] at whole
          constructor
          · intro member
            rcases whole.1 (.inr member) with h | h
            · exact absurd (congrArg Prod.fst h).symm (ne_of_before (leftAsc.1 z member))
            · exact h
          · intro member
            rcases whole.2 (.inr member) with h | h
            · exact absurd (congrArg Prod.fst h).symm (ne_of_before (rightAsc.1 z member))
            · exact h
        rw [ih leftAsc.2 right rightAsc.2 tail]
  subst equal
  rfl

end Lemmas

section Sets

variable [DecidableEq κ] {α : Type} [KeyOrder α] {m : KeyMap κ (KeySet α)} {k : κ} {x : α}

/-- The set that a map has for a key, empty where it has none. -/
def setAt (m : KeyMap κ (KeySet α)) (k : κ) : KeySet α := (m.get? k).getD ∅

theorem mem_setAt_iff : x ∈ m.setAt k ↔ ∃ s, m.get? k = some s ∧ x ∈ s := by
  unfold setAt
  cases m.get? k with
  | none => simp
  | some s => simp

theorem mem_setAt_update_insert {key : κ} {a : α} :
    x ∈ (m.update k ∅ (·.insert a)).setAt key ↔ (key = k ∧ x = a) ∨ x ∈ m.setAt key := by
  unfold setAt
  rw [get?_update]
  by_cases same : k = key
  · subst same
    simp
  · simp [same, Ne.symm same]

/-- Maps of the same keys that have the same elements for each. -/
theorem eq_of_setAt {n : KeyMap κ (KeySet α)}
    (keys : ∀ k, (∃ s, m.get? k = some s) ↔ ∃ s, n.get? k = some s)
    (sets : ∀ k x, x ∈ m.setAt k ↔ x ∈ n.setAt k) : m = n := by
  apply ext
  intro k
  have same := KeySet.ext (sets k)
  have present := keys k
  unfold setAt at same
  cases left : m.get? k with
  | none =>
    cases right : n.get? k with
    | none => rfl
    | some t => simp [left, right] at present
  | some s =>
    cases right : n.get? k with
    | none => simp [left, right] at present
    | some t => simpa [left, right] using same

/-- No key has an empty set. -/
def NoneEmpty (m : KeyMap κ (KeySet α)) : Prop := ∀ k s, m.get? k = some s → ∃ x, x ∈ s

theorem NoneEmpty.update_insert (filled : m.NoneEmpty) (k : κ) (a : α) :
    (m.update k ∅ (·.insert a)).NoneEmpty := by
  intro key s found
  rw [get?_update] at found
  split at found
  · cases found
    exact ⟨a, KeySet.mem_insert.2 (.inl rfl)⟩
  · exact filled key s found

theorem NoneEmpty.get?_iff (filled : m.NoneEmpty) :
    (∃ s, m.get? k = some s) ↔ ∃ x, x ∈ m.setAt k := by
  constructor
  · rintro ⟨s, found⟩
    obtain ⟨x, member⟩ := filled k s found
    exact ⟨x, mem_setAt_iff.2 ⟨s, found, member⟩⟩
  · rintro ⟨x, member⟩
    obtain ⟨s, found, _⟩ := mem_setAt_iff.1 member
    exact ⟨s, found⟩

theorem NoneEmpty.eq_of_setAt {n : KeyMap κ (KeySet α)} (filled : m.NoneEmpty)
    (filledToo : n.NoneEmpty) (sets : ∀ k x, x ∈ m.setAt k ↔ x ∈ n.setAt k) : m = n := by
  refine KeyMap.eq_of_setAt ?_ sets
  intro k
  rw [filled.get?_iff, filledToo.get?_iff]
  exact exists_congr (sets k)

end Sets

end KeyMap

end CodeSplit
