import CodeSplit.Proofs.RootCollection

/-!
The chunk name of a root. Several dependencies may create a root, and some of them may declare a
chunk name for it. The root takes what the dependency with the lowest id says, be it that there is
no name: a name that another one declares is then lost.
-/
namespace CodeSplit

/-- One of some dependencies, such that none of them has a lower id. -/
structure Dependency.LowestOf (among : Dependency → Prop) (d : Dependency) : Prop where
  one : among d
  least : ∀ e, among e → KeyOrder.before e.id d.id = false

theorem Dependency.LowestOf.id_eq {among : Dependency → Prop} {d e : Dependency}
    (left : LowestOf among d) (right : LowestOf among e) : d.id = e.id :=
  KeyOrder.total (right.least d left.one) (left.least e right.one)

/-- The lowest of some dependencies is also the lowest of those few that it belongs to. -/
theorem Dependency.LowestOf.of_imp {among few : Dependency → Prop} {d : Dependency}
    (lowest : LowestOf among d) (fewer : ∀ e, few e → among e) (one : few d) : LowestOf few d :=
  ⟨one, fun e member => lowest.least e (fewer e member)⟩

theorem exists_lowestDependency {ds : List Dependency} {d : Dependency} (listed : d ∈ ds) :
    ∃ lowest, lowestDependency? ds = some lowest ∧ Dependency.LowestOf (· ∈ ds) lowest := by
  cases ds with
  | nil => cases listed
  | cons first rest =>
    obtain ⟨member, least⟩ := lowest_of_foldl first rest
    exact ⟨_, rfl, member, least⟩

namespace Index

open Dependency (LowestOf)

variable (i : Index) (entries : List Entry) (k : AssetKey)

/-- The dependency makes the asset a root. -/
def Creator (d : Dependency) : Prop := ∃ t, i.Creates entries k d t

/-- The dependency makes the asset a root and declares a chunk name for it. -/
def Namer (d : Dependency) : Prop := i.Creator entries k d ∧ d.chunkName.isSome = true

/-- The root has the chunk name that the lowest of the dependencies declares that declare one, and
none if there is no such dependency. -/
structure KeepsName (root : Root) : Prop where
  named : (∃ d, i.Namer entries k d) →
    ∃ d, LowestOf (i.Namer entries k) d ∧ root.chunkName = d.chunkName
  unnamed : (∀ d, ¬ i.Namer entries k d) → root.chunkName = none

/-- Ids tell the dependencies apart that make the asset a root. -/
def CreatorsApart : Prop :=
  ∀ d e, i.Creator entries k d → i.Creator entries k e → d.id = e.id → d = e

variable {i entries k} {root : Root}

/-- In the index of a graph that calls built, ids tell dependencies apart. -/
theorem creatorsApart_ofGraph {g : AssetGraph} (built : g.Built)
    (listed : ∀ e ∈ entries, .dependency e.dependency ∈ g.nodes) :
    (ofGraph g).CreatorsApart entries k := by
  have isNode {d : Dependency} (creator : (ofGraph g).Creator entries k d) :
      .dependency d ∈ g.nodes := by
    obtain ⟨t, creates⟩ := creator
    cases creates with
    | entry member _ => exact listed _ member
    | boundary _ member _ _ => exact dependency_mem_nodes member
  intro d e left right same
  exact built.distinctKeys.dependency_eq (isNode left) (isNode right) same

theorem roots_of_collectRoots {roots : KeyMap AssetKey Root}
    (collected : (i.collectRoots entries).result = .ok roots) : roots = i.roots entries := by
  unfold collectRoots at collected
  obtain ⟨_, _, collected⟩ := Report.result_bind_eq_ok.1 collected
  cases collected
  rfl

/-- A root takes its chunk name from the lowest of the dependencies that create it. -/
theorem exists_lowest_creator (found : (i.roots entries).get? k = some root) :
    ∃ d, LowestOf (i.Creator entries k) d ∧ root.chunkName = d.chunkName := by
  obtain ⟨created, asset, _, rfl⟩ := get?_roots_eq_some_iff.1 found
  let creations := (i.creations entries).filter (·.asset = k)
  have creators (d : Dependency) :
      d ∈ creations.map Creation.dependency ↔ i.Creator entries k d := by
    simp only [creations, List.mem_map, mem_creations_of_root]
    constructor
    · rintro ⟨c, ⟨creates, _⟩, rfl⟩
      exact ⟨c.triggers, creates⟩
    · rintro ⟨t, creates⟩
      exact ⟨⟨k, d, t⟩, ⟨creates, rfl⟩, rfl⟩
  obtain ⟨⟨_, d, t⟩, listed, rfl⟩ := List.mem_map.1 created
  obtain ⟨lowest, chosen, isLowest⟩ :=
    exists_lowestDependency ((creators d).2 ⟨t, creates_iff.2 listed⟩)
  simp only [creators] at isLowest
  refine ⟨lowest, isLowest, ?_⟩
  show (lowestDependency? (creations.map Creation.dependency)).bind Dependency.chunkName = _
  rw [chosen, Option.bind_some]

/-- A name that a root has is the right one. -/
theorem keepsName_of_chunkName (found : (i.roots entries).get? k = some root)
    (named : root.chunkName.isSome = true) : i.KeepsName entries k root := by
  obtain ⟨d, lowest, taken⟩ := exists_lowest_creator found
  have namer : i.Namer entries k d := ⟨lowest.one, taken ▸ named⟩
  constructor
  · intro _
    exact ⟨d, lowest.of_imp (fun _ => And.left) namer, taken⟩
  · intro noOne
    exact absurd namer (noOne d)

/-- Where ids tell the creators of a root apart, its name is kept exactly if the lowest of them
declares one, or none of them does. -/
theorem keepsName_iff (found : (i.roots entries).get? k = some root)
    (apart : i.CreatorsApart entries k) :
    i.KeepsName entries k root ↔
      ∀ d, LowestOf (i.Creator entries k) d → d.chunkName = none → ∀ e, ¬ i.Namer entries k e := by
  obtain ⟨d, lowest, taken⟩ := exists_lowest_creator found
  constructor
  · intro keeps e lowestToo unnamed f namer
    have same : d = e := apart d e lowest.one lowestToo.one (lowest.id_eq lowestToo)
    obtain ⟨g, isNamed, kept⟩ := keeps.named ⟨f, namer⟩
    have isSome := isNamed.one.2
    rw [← kept, taken, same, unnamed] at isSome
    cases isSome
  · intro silent
    cases name : root.chunkName with
    | some text => exact keepsName_of_chunkName found (by rw [name, Option.isSome_some])
    | none =>
      have noOne := silent d lowest (taken.symm.trans name)
      refine ⟨?_, fun _ => name⟩
      rintro ⟨e, namer⟩
      exact absurd namer (noOne e)

end Index

open Dependency (LowestOf)

/-- Collecting the roots of any entries of an index. The chunk name of a root is that of the lowest
of the dependencies that create it, so that a name that it has is the one of the lowest dependency
that declares any. If ids tell these dependencies apart, as they do in the index of a graph that
calls built, no declared name is lost exactly if the lowest of all declares one, or none of them
does. -/
theorem chunk_name_kept_iff (i : Index) (entries : List Entry) (roots : KeyMap AssetKey Root)
    (k : AssetKey) (root : Root) (collected : (i.collectRoots entries).result = .ok roots)
    (found : roots.get? k = some root) :
    (∃ d, LowestOf (i.Creator entries k) d ∧ root.chunkName = d.chunkName) ∧
      (root.chunkName.isSome = true → i.KeepsName entries k root) ∧
      (i.CreatorsApart entries k →
        (i.KeepsName entries k root ↔ ∀ d, LowestOf (i.Creator entries k) d →
          d.chunkName = none → ∀ e, ¬ i.Namer entries k e)) ∧
      ∀ g : AssetGraph, g.Built → i = .ofGraph g →
        (∀ e ∈ entries, .dependency e.dependency ∈ g.nodes) → i.CreatorsApart entries k := by
  rw [Index.roots_of_collectRoots collected] at found
  refine ⟨Index.exists_lowest_creator found, Index.keepsName_of_chunkName found,
    Index.keepsName_iff found, ?_⟩
  rintro g built rfl listed
  exact Index.creatorsApart_ofGraph built listed

/-- An application that loads a page in two places, each of which may declare a chunk name. -/
def pageOfTwoPlaces (high low : Option String) : Index :=
  let page (id : String) (chunkName : Option String) : Link :=
    ⟨{ id, specifier := "page", priority := .lazy, chunkName }, some 1⟩
  ⟨[⟨{ id := "app" }, "", [page "place b" high, page "place a" low]⟩, ⟨{ id := "page" }, "", []⟩]⟩

def pageOfTwoPlacesEntries : List Entry :=
  [⟨{ id := "entry", specifier := "app", isEntry := true }, 0, {}⟩]

/-- The name is lost if only the place with the higher id declares it. -/
theorem pageOfTwoPlaces_name_lost :
    ∃ roots root, ((pageOfTwoPlaces (some "page") none).collectRoots
        pageOfTwoPlacesEntries).result = .ok roots ∧
      roots.get? 1 = some root ∧ root.chunkName = none ∧
      ¬ (pageOfTwoPlaces (some "page") none).KeepsName pageOfTwoPlacesEntries 1 root := by
  refine ⟨(pageOfTwoPlaces (some "page") none).roots pageOfTwoPlacesEntries,
    { assetId := "page", triggers := { lazy := true } }, by decide +kernel, by decide +kernel, rfl,
    ?_⟩
  intro keeps
  have created : (pageOfTwoPlaces (some "page") none).Creates pageOfTwoPlacesEntries 1 _ _ :=
    .boundary ⟨_, List.mem_cons_self, .refl⟩ List.mem_cons_self rfl rfl
  obtain ⟨d, lowest, taken⟩ := keeps.named ⟨_, ⟨_, created⟩, rfl⟩
  have declares := lowest.one.2
  rw [← taken] at declares
  cases declares

/-- It is kept if the place with the lower id declares it. -/
theorem pageOfTwoPlaces_name_kept :
    ∃ roots root, ((pageOfTwoPlaces none (some "page")).collectRoots
        pageOfTwoPlacesEntries).result = .ok roots ∧
      roots.get? 1 = some root ∧ root.chunkName = some "page" ∧
      (pageOfTwoPlaces none (some "page")).KeepsName pageOfTwoPlacesEntries 1 root := by
  have collected : ((pageOfTwoPlaces none (some "page")).collectRoots
      pageOfTwoPlacesEntries).result = .ok ((pageOfTwoPlaces none (some "page")).roots
        pageOfTwoPlacesEntries) := by decide +kernel
  have found : ((pageOfTwoPlaces none (some "page")).roots pageOfTwoPlacesEntries).get? 1 =
      some { assetId := "page", triggers := { lazy := true }, chunkName := some "page" } := by
    decide +kernel
  have each : ∀ c ∈ (pageOfTwoPlaces none (some "page")).creations pageOfTwoPlacesEntries,
      c.asset = 1 → ∀ d ∈ (pageOfTwoPlaces none (some "page")).creations pageOfTwoPlacesEntries,
        d.asset = 1 → (c.dependency.id = d.dependency.id → c.dependency = d.dependency) ∧
          (c.dependency.chunkName = none → d.dependency.id = "place a" →
            KeyOrder.before d.dependency.id c.dependency.id = true) := by decide +kernel
  obtain ⟨_, _, kept, _⟩ := chunk_name_kept_iff _ _ _ _ _ collected found
  refine ⟨_, _, collected, found, rfl, (kept ?_).2 ?_⟩
  · rintro d e ⟨t, left⟩ ⟨u, right⟩
    exact (each _ (Index.creates_iff.1 left) rfl _ (Index.creates_iff.1 right) rfl).1
  · intro d lowest unnamed
    obtain ⟨t, creates⟩ := lowest.one
    have place : (pageOfTwoPlaces none (some "page")).Creates pageOfTwoPlacesEntries 1 _ _ :=
      .boundary ⟨_, List.mem_cons_self, .refl⟩ (List.mem_cons_of_mem _ List.mem_cons_self) rfl rfl
    have earlier := (each _ (Index.creates_iff.1 creates) rfl _ (Index.creates_iff.1 place) rfl).2
      unnamed rfl
    have notEarlier := lowest.least _ ⟨_, place⟩
    rw [earlier] at notEarlier
    cases notEarlier

end CodeSplit
