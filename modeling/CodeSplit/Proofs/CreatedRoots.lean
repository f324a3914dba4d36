import CodeSplit.Plan.Roots
import CodeSplit.Proofs.Keyed
import Mathlib.Data.List.Induction

/-!
What collecting roots makes of an asset. Roots are added to one by one, each time something that
creates one is met, and two tables are kept for this. In the end a root is given by its asset and
the list of what creates it.
-/
namespace CodeSplit

/-- The dependency with the lowest id, the first one of several. -/
def lowestDependency? : List Dependency → Option Dependency
  | [] => none
  | d :: rest =>
    some (rest.foldl (fun lowest e => if KeyOrder.before e.id lowest.id then e else lowest) d)

theorem lowestDependency?_append_singleton (ds : List Dependency) (d : Dependency) :
    lowestDependency? (ds ++ [d]) =
      if (lowestDependency? ds).all fun lowest => KeyOrder.before d.id lowest.id then some d
      else lowestDependency? ds := by
  cases ds with
  | nil => rfl
  | cons first rest =>
    simp only [List.cons_append, lowestDependency?, List.foldl_append, List.foldl_cons,
      List.foldl_nil, Option.all_some]
    exact apply_ite some _ _ _

/-- The root that an asset becomes by its creations. -/
def Root.ofCreations (asset : Asset) (creations : List Creation) : Root where
  assetId := asset.id
  env := asset.env
  fileType := asset.fileType
  triggers := creations.foldl (fun t c => t.union c.triggers) {}
  needsStableName := creations.any fun c => c.dependency.needsStableName
  chunkName := (lowestDependency? (creations.map Creation.dependency)).bind Dependency.chunkName
  isSplittable := asset.isSplittable

/-- What a creation adds to a root, its name apart. -/
def Root.add (root : Root) (c : Creation) : Root :=
  { root with
    triggers := root.triggers.union c.triggers
    needsStableName := root.needsStableName || c.dependency.needsStableName }

theorem Root.foldl_add (asset : Asset) (cs : List Creation) :
    cs.foldl Root.add (.ofAsset asset) = { Root.ofCreations asset cs with chunkName := none } := by
  induction cs using List.reverseRecOn with
  | nil => rfl
  | append_singleton cs c ih =>
    rw [List.foldl_append, ih]
    simp [add, ofCreations]

namespace RootCollection

variable {i : Index} {asset : Asset} {creation : Creation} {k : AssetKey}

/-- What creates a root leaves the others as they are. -/
theorem create_of_ne (c : RootCollection) (apart : creation.asset ≠ k) :
    (c.create i creation).roots.get? k = c.roots.get? k ∧
      (c.create i creation).naming.get? k = c.naming.get? k := by
  unfold create
  cases i.asset? creation.asset with
  | none => exact ⟨rfl, rfl⟩
  | some asset =>
    unfold addRoot recordNaming
    constructor
    · cases creation.dependency.needsStableName with
      | true => simp [apart, apart.symm]
      | false => simp [apart]
    · dsimp only
      split
      · simp [apart]
      · rfl

/-- It adds to its own root. -/
theorem get?_roots_create (c : RootCollection) (known : i.asset? creation.asset = some asset) :
    (c.create i creation).roots.get? creation.asset =
      some (((c.roots.get? creation.asset).getD (.ofAsset asset)).add creation) := by
  unfold create addRoot recordNaming Root.add
  rw [known]
  cases creation.dependency.needsStableName with
  | true => simp
  | false => simp

/-- It names its root if nothing with a lower id, or with the same one, has done so. -/
theorem get?_naming_create (c : RootCollection) (known : i.asset? creation.asset = some asset) :
    (c.create i creation).naming.get? creation.asset =
      if (c.naming.get? creation.asset).all fun named =>
        KeyOrder.before creation.dependency.id named.1 then
          some (creation.dependency.id, creation.dependency.chunkName)
      else c.naming.get? creation.asset := by
  unfold create addRoot recordNaming
  rw [known]
  dsimp only
  split
  · simp
  · rfl

/-- The tables after some creations. All that creates a root has been added to it, and its naming is
that of the lowest dependency. -/
theorem get?_foldl_create (known : i.asset? k = some asset) (cs : List Creation) :
    let c := cs.foldl (create i) {}
    let made := cs.filter (·.asset = k)
    (c.roots.get? k = if made = [] then none else some (made.foldl Root.add (.ofAsset asset))) ∧
    c.naming.get? k = (lowestDependency? (made.map Creation.dependency)).map fun d =>
      (d.id, d.chunkName) := by
  induction cs using List.reverseRecOn with
  | nil => exact ⟨rfl, rfl⟩
  | append_singleton cs creation ih =>
    obtain ⟨roots, naming⟩ := ih
    simp only [List.foldl_append, List.foldl_cons, List.foldl_nil, List.filter_append]
    by_cases same : creation.asset = k
    · subst same
      have added : [creation].filter (fun c => decide (c.asset = creation.asset)) = [creation] := by
        simp
      rw [get?_roots_create _ known, get?_naming_create _ known, roots, naming, added]
      generalize cs.filter (fun c => decide (c.asset = creation.asset)) = made
      constructor
      · rw [if_neg (List.append_ne_nil_of_right_ne_nil _ (List.cons_ne_nil _ _))]
        split
        · rename_i none
          rw [none]
          rfl
        · rfl
      · rw [List.map_append, List.map_singleton, lowestDependency?_append_singleton,
          apply_ite (Option.map _), Option.all_map]
        rfl
    · rw [(create_of_ne _ same).1, (create_of_ne _ same).2, roots, naming]
      simp [same]

/-- Nothing is collected for a key that no asset has. -/
theorem get?_foldl_create_of_none (unknown : i.asset? k = none) (cs : List Creation) :
    (cs.foldl (create i) {}).roots.get? k = none := by
  induction cs using List.reverseRecOn with
  | nil => rfl
  | append_singleton cs creation ih =>
    rw [List.foldl_append, List.foldl_cons, List.foldl_nil]
    by_cases same : creation.asset = k
    · rw [create, same, unknown]
      exact ih
    · rw [(create_of_ne _ same).1, ih]

end RootCollection

namespace Index

variable {i : Index} {entries : List Entry}

/-- Adding to the roots one by one gives the roots of all that creates them. -/
theorem get?_roots (k : AssetKey) :
    (i.roots entries).get? k = if k ∈ (i.creations entries).map Creation.asset then
      (i.asset? k).map fun a => Root.ofCreations a ((i.creations entries).filter (·.asset = k))
    else none := by
  have listed : k ∈ (i.creations entries).map Creation.asset ↔
      (i.creations entries).filter (·.asset = k) ≠ [] := by
    simp [List.filter_eq_nil_iff]
  unfold roots RootCollection.named
  rw [KeyMap.get?_map]
  cases known : i.asset? k with
  | none =>
    rw [RootCollection.get?_foldl_create_of_none known]
    simp
  | some asset =>
    obtain ⟨roots, naming⟩ := RootCollection.get?_foldl_create known (i.creations entries)
    have named (ds : List Dependency) : ((lowestDependency? ds).map fun d =>
        (d.id, d.chunkName)).bind Prod.snd = (lowestDependency? ds).bind Dependency.chunkName :=
      Option.bind_map
    rw [roots, naming, named]
    simp only [listed]
    split
    · rename_i none
      simp [none]
    · simp [Root.foldl_add, Root.ofCreations]

/-- Roots are made from their asset and from what creates them. -/
theorem get?_roots_eq_some_iff {k : AssetKey} {root : Root} :
    (i.roots entries).get? k = some root ↔
      k ∈ (i.creations entries).map Creation.asset ∧ ∃ asset, i.asset? k = some asset ∧
        Root.ofCreations asset ((i.creations entries).filter (·.asset = k)) = root := by
  rw [get?_roots, Option.ite_none_right_eq_some, Option.map_eq_some_iff]

end Index

end CodeSplit
