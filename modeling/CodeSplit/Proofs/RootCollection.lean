import CodeSplit.Proofs.PassProgress

/-!
Which assets become roots, and what a root takes from the dependencies that make it one. A walk from
the entries may meet a root many times and adds to it each time. What it has in the end is said here
without any order: the triggers of all that creates the root, and a stable name if one of them needs
it. So neither the order of the entries nor that of the dependencies of an asset matters.
-/
namespace CodeSplit

namespace Triggers

/-- The triggers of all that is given, and no others. -/
structure IsUnionOf (t : Triggers) (given : Triggers → Prop) : Prop where
  has : ∀ u, given u → u.Within t
  least : ∀ all, (∀ u, given u → u.Within all) → t.Within all

theorem union_within {a b all : Triggers} (left : a.Within all) (right : b.Within all) :
    (a.union b).Within all := by
  have assoc : (a.union b).union all = a.union (b.union all) := by
    simp [union, Bool.or_assoc]
  unfold Within at left right ⊢
  rw [assoc, right, left]

theorem foldl_within {cs : List Creation} {start all : Triggers} (first : start.Within all)
    (each : ∀ c ∈ cs, c.triggers.Within all) :
    (cs.foldl (fun t c => t.union c.triggers) start).Within all := by
  induction cs generalizing start with
  | nil => exact first
  | cons c cs ih =>
    rw [List.foldl_cons]
    apply ih (union_within first (each c List.mem_cons_self))
    intro d later
    exact each d (List.mem_cons_of_mem _ later)

theorem isUnionOf_foldl (cs : List Creation) :
    IsUnionOf (cs.foldl (fun t c => t.union c.triggers) {}) fun t => ∃ c ∈ cs, c.triggers = t := by
  constructor
  · rintro _ ⟨c, listed, rfl⟩
    exact within_foldl listed {}
  · intro all each
    apply foldl_within
    · simp [Within, union]
    · intro c listed
      exact each c.triggers ⟨c, listed, rfl⟩

end Triggers

namespace Index

variable {i j : Index} {entries others : List Entry} {k : AssetKey} {d : Dependency} {t : Triggers}

/-- The dependency makes the asset a root, for these triggers: it is an entry, or it starts a bundle
and is declared by an asset that the entries lead to. -/
inductive Creates (i : Index) (entries : List Entry) (k : AssetKey) : Dependency → Triggers → Prop
  | entry {e : Entry} : e ∈ entries → e.asset = k →
    Creates i entries k e.dependency { entry := true }
  | boundary {source : AssetKey} {link : Link} : i.Reachable entries source →
    link ∈ i.links source → link.target = some k →
    (i.triggersOf source link.dependency k).isEmpty = false →
    Creates i entries k link.dependency (i.triggersOf source link.dependency k)

theorem creates_iff : i.Creates entries k d t ↔ ⟨k, d, t⟩ ∈ i.creations entries := by
  rw [creations, List.mem_append, List.mem_map, List.mem_map]
  constructor
  · intro creates
    cases creates with
    | entry listed same => exact .inl ⟨_, listed, by rw [Entry.creation, same]⟩
    | @boundary source link reachable member resolved starts =>
      refine .inr ⟨⟨source, k, link.dependency, i.triggersOf source link.dependency k⟩, ?_, rfl⟩
      exact mem_boundaries.2
        ⟨mem_reachable.2 reachable, link, member, resolved, rfl, rfl, starts⟩
  · rintro (⟨e, listed, made⟩ | ⟨b, listed, made⟩)
    · cases made
      exact .entry listed rfl
    · cases made
      obtain ⟨reachable, link, member, resolved, dependency, triggers, starts⟩ :=
        mem_boundaries.1 listed
      rw [triggers, dependency] at starts ⊢
      exact .boundary (mem_reachable.1 reachable) member resolved starts

/-- What creates a root is an entry of the index or a dependency that leads to it. -/
theorem Covers.known_of_creates (covers : i.Covers entries) (creates : i.Creates entries k d t) :
    ∃ asset, i.asset? k = some asset := by
  cases creates with
  | entry listed same => exact same ▸ covers.entered _ listed
  | boundary _ member resolved _ => exact covers.resolved _ k ⟨_, member, resolved⟩

theorem Covers.exists_root_iff (covers : i.Covers entries) :
    (∃ root, (i.roots entries).get? k = some root) ↔ ∃ d t, i.Creates entries k d t := by
  simp only [get?_roots_eq_some_iff, List.mem_map, creates_iff]
  constructor
  · rintro ⟨_, ⟨⟨_, d, t⟩, listed, rfl⟩, _⟩
    exact ⟨d, t, listed⟩
  · rintro ⟨d, t, listed⟩
    obtain ⟨asset, known⟩ := covers.known_of_creates (creates_iff.2 listed)
    exact ⟨_, ⟨_, listed, rfl⟩, asset, known, rfl⟩

theorem mem_creations_of_root {c : Creation} :
    c ∈ (i.creations entries).filter (·.asset = k) ↔
      i.Creates entries k c.dependency c.triggers ∧ c.asset = k := by
  rw [List.mem_filter, decide_eq_true_eq, creates_iff]
  constructor
  · rintro ⟨listed, rfl⟩
    exact ⟨listed, rfl⟩
  · rintro ⟨listed, rfl⟩
    exact ⟨listed, rfl⟩

theorem triggers_of_root {root : Root} (found : (i.roots entries).get? k = some root) :
    root.triggers.IsUnionOf fun t => ∃ d, i.Creates entries k d t := by
  obtain ⟨_, asset, _, rfl⟩ := get?_roots_eq_some_iff.1 found
  have union := Triggers.isUnionOf_foldl ((i.creations entries).filter (·.asset = k))
  have given (t : Triggers) : (∃ c ∈ (i.creations entries).filter (·.asset = k), c.triggers = t) ↔
      ∃ d, i.Creates entries k d t := by
    simp only [mem_creations_of_root]
    constructor
    · rintro ⟨c, ⟨creates, _⟩, rfl⟩
      exact ⟨c.dependency, creates⟩
    · rintro ⟨d, creates⟩
      exact ⟨⟨k, d, t⟩, ⟨creates, rfl⟩, rfl⟩
  simp only [given] at union
  exact union

theorem needsStableName_of_root {root : Root} (found : (i.roots entries).get? k = some root) :
    root.needsStableName = true ↔ ∃ d t, i.Creates entries k d t ∧ d.needsStableName = true := by
  obtain ⟨_, asset, _, rfl⟩ := get?_roots_eq_some_iff.1 found
  simp only [Root.ofCreations, List.any_eq_true, mem_creations_of_root]
  constructor
  · rintro ⟨c, ⟨creates, _⟩, stable⟩
    exact ⟨c.dependency, c.triggers, creates, stable⟩
  · rintro ⟨d, t, creates, stable⟩
    exact ⟨⟨k, d, t⟩, ⟨creates, rfl⟩, stable⟩

/-- An index that lists the same dependencies in another order covers the same entries. -/
theorem Covers.of_agree (covers : i.Covers entries) (agree : i.Agree j)
    (perm : entries.Perm others) : j.Covers others := by
  constructor
  · rintro a b ⟨link, member, resolved⟩
    rw [← agree.asset?_eq]
    exact covers.resolved a b ⟨link, (agree.links a).mem_iff.2 member, resolved⟩
  · intro entry listed
    rw [← agree.asset?_eq]
    exact covers.entered entry (perm.mem_iff.2 listed)

end Index

/-- Collecting the roots of any entries of an index. The roots are the entries and what dependencies
that start a bundle lead to from anywhere the entries lead. A root has the triggers of all that
creates it and no others, and needs a stable name if and only if something that creates it does. The
order of the entries and that in which assets list their dependencies do not matter: the roots are
the same if ids tell apart what creates one root, and all that is noted is the same as well if every
dependency is listed once. -/
theorem collected_roots_are_exact (i : Index) (entries : List Entry) (covers : i.Covers entries) :
    ∃ roots, (i.collectRoots entries).result = .ok roots ∧
      (∀ k, (∃ root, roots.get? k = some root) ↔ ∃ d t, i.Creates entries k d t) ∧
      (∀ k root, roots.get? k = some root →
        (root.triggers.IsUnionOf fun t => ∃ d, i.Creates entries k d t) ∧
        (root.needsStableName = true ↔
          ∃ d t, i.Creates entries k d t ∧ d.needsStableName = true)) ∧
      ∀ j others, i.Agree j → entries.Perm others →
        ((∀ k d e t u, i.Creates entries k d t → i.Creates entries k e u → d.id = e.id → d = e) →
          (j.collectRoots others).result = .ok roots) ∧
        ∀ known, i.DeclaredOnce known → (∀ e ∈ entries, known e.dependency) →
          j.collectRoots others = i.collectRoots entries := by
  refine ⟨i.roots entries, covers.collectRoots, fun k => covers.exists_root_iff, ?_, ?_⟩
  · intro k root found
    exact ⟨Index.triggers_of_root found, Index.needsStableName_of_root found⟩
  · intro j others agree perm
    constructor
    · intro unique
      have same : i.roots entries = j.roots others := by
        apply agree.roots_eq_of_perm perm
        rintro ⟨k, d, t⟩ left ⟨_, e, u⟩ right rfl
        exact unique k d e t u (Index.creates_iff.2 left) (Index.creates_iff.2 right)
      rw [same]
      exact (covers.of_agree agree perm).collectRoots
    · intro known declared entriesKnown
      exact (agree.collectRoots_eq declared entriesKnown perm).symm

/-- Two entries, `admin` and `shop`, that load the same page, one of them under a stable name, and a
library of `admin` and the page. -/
def pageOfTwoEntries : Index :=
  let library (id : String) : Link := ⟨{ id, specifier := "lib" }, some 1⟩
  let page (id : String) (priority : Priority) (needsStableName : Bool) : Link :=
    ⟨{ id, specifier := "page", priority, needsStableName }, some 2⟩
  ⟨[⟨{ id := "admin" }, "", [page "admin to page" .conditional true, library "admin to lib"]⟩,
    ⟨{ id := "lib" }, "", []⟩, ⟨{ id := "page" }, "", [library "page to lib"]⟩,
    ⟨{ id := "shop" }, "", [page "shop to page" .lazy false]⟩]⟩

/-- The same assets, where `admin` lists its library first. -/
def pageOfTwoEntriesReordered : Index :=
  ⟨pageOfTwoEntries.assets.map fun a => { a with links := a.links.reverse }⟩

def pageOfTwoEntriesEntries : List Entry :=
  [⟨{ id := "entry admin", specifier := "admin", isEntry := true }, 0, {}⟩,
    ⟨{ id := "entry shop", specifier := "shop", isEntry := true }, 3, {}⟩]

/-- The page is a root for both reasons and needs a stable name, the library is no root, and the
order of entries and dependencies does not matter. -/
theorem pageOfTwoEntries_collected :
    ∃ roots, (pageOfTwoEntries.collectRoots pageOfTwoEntriesEntries).result = .ok roots ∧
      (∃ root, roots.get? 2 = some root ∧ ({ lazy := true } : Triggers).Within root.triggers ∧
        ({ conditional := true } : Triggers).Within root.triggers ∧
        root.triggers.Within { lazy := true, conditional := true } ∧ root.needsStableName = true) ∧
      (¬∃ root, roots.get? 1 = some root) ∧
      (pageOfTwoEntriesReordered.collectRoots pageOfTwoEntriesEntries.reverse).result =
        .ok roots := by
  have inside : ∀ k ∈ pageOfTwoEntries.keys, ∀ link ∈ pageOfTwoEntries.links k,
      (link.target.bind pageOfTwoEntries.asset?).isSome = true := by decide
  have entered : ∀ e ∈ pageOfTwoEntriesEntries,
      (pageOfTwoEntries.asset? e.asset).isSome = true := by decide
  have covers : pageOfTwoEntries.Covers pageOfTwoEntriesEntries := by
    constructor
    · rintro a b ⟨link, member, resolved⟩
      have known := inside a (Index.mem_keys_of_links (List.ne_nil_of_mem member)) link member
      rw [resolved, Option.bind_some] at known
      exact Option.isSome_iff_exists.1 known
    · intro e listed
      exact Option.isSome_iff_exists.1 (entered e listed)
  have agree : pageOfTwoEntries.Agree pageOfTwoEntriesReordered := by
    refine ⟨by decide, ?_⟩
    intro k
    rcases k with _ | _ | _ | _ | k
    · decide
    · decide
    · decide
    · decide
    · exact .refl _
  have created : ∀ c ∈ pageOfTwoEntries.creations pageOfTwoEntriesEntries,
      ∀ d ∈ pageOfTwoEntries.creations pageOfTwoEntriesEntries,
        c.dependency.id = d.dependency.id → c.dependency = d.dependency := by decide +kernel
  have isLib : ∀ c ∈ pageOfTwoEntries.creations pageOfTwoEntriesEntries, c.asset ≠ 1 := by
    decide +kernel
  have isPage : ∀ c ∈ pageOfTwoEntries.creations pageOfTwoEntriesEntries, c.asset = 2 →
      c.triggers.union { lazy := true, conditional := true } =
        { lazy := true, conditional := true } := by decide +kernel
  obtain ⟨roots, success, isRoot, each, orderFree⟩ :=
    collected_roots_are_exact pageOfTwoEntries pageOfTwoEntriesEntries covers
  have lazily : pageOfTwoEntries.Creates pageOfTwoEntriesEntries 2 _ _ :=
    .boundary ⟨_, List.mem_cons_of_mem _ List.mem_cons_self, .refl⟩ List.mem_cons_self rfl rfl
  have conditionally : pageOfTwoEntries.Creates pageOfTwoEntriesEntries 2 _ _ :=
    .boundary ⟨_, List.mem_cons_self, .refl⟩ List.mem_cons_self rfl rfl
  obtain ⟨root, found⟩ := (isRoot 2).2 ⟨_, _, lazily⟩
  obtain ⟨union, stable⟩ := each 2 root found
  refine ⟨roots, success, ⟨root, found, union.has _ ⟨_, lazily⟩, union.has _ ⟨_, conditionally⟩,
    union.least _ ?_, stable.2 ⟨_, _, conditionally, rfl⟩⟩, ?_, ?_⟩
  · rintro t ⟨d, creates⟩
    exact isPage _ (Index.creates_iff.1 creates) rfl
  · rw [isRoot 1]
    rintro ⟨d, t, creates⟩
    exact isLib _ (Index.creates_iff.1 creates) rfl
  · refine (orderFree _ _ agree (List.reverse_perm _).symm).1 ?_
    intro k d e t u left right
    exact created _ (Index.creates_iff.1 left) _ (Index.creates_iff.1 right)

end CodeSplit
