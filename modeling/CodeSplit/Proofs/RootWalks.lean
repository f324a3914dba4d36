import CodeSplit.Plan.Reach
import CodeSplit.Proofs.Membership

/-!
What the walks from the roots find. Together with the roots that it reuses, a root reaches
everything that its asset needs synchronously.
-/
namespace CodeSplit

theorem mem_dropRepeated {α : Type} [DecidableEq α] {x : α} {xs : List α} :
    x ∈ dropRepeated xs ↔ x ∈ xs := by
  fun_induction dropRepeated xs with
  | case1 => rfl
  | case2 => rfl
  | case3 y rest ih =>
    rw [ih]
    simp
  | case4 y z rest _ ih => rw [List.mem_cons, ih, List.mem_cons (b := y)]

theorem dropRepeated_of_nodup {α : Type} [DecidableEq α] {xs : List α} (distinct : xs.Nodup) :
    dropRepeated xs = xs := by
  fun_induction dropRepeated xs with
  | case1 => rfl
  | case2 => rfl
  | case3 y rest _ => simp at distinct
  | case4 y z rest _ ih => rw [ih distinct.of_cons]

namespace Step

variable {step : Step} {k : AssetKey} {e : BundleEdge}

theorem entered?_eq_some_iff : step.entered? = some k ↔ step = .enter k := by
  cases step <;> simp [entered?]

theorem crossed?_eq_some_iff : step.crossed? = some e ↔ step = .cross e := by
  cases step <;> simp [crossed?]

theorem reused?_eq_some_iff : step.reused? = some k ↔ step = .reuse k := by
  cases step <;> simp [reused?]

end Step

namespace Index

open Relation (ReflTransGen)

variable {i : Index} {roots : KeyMap AssetKey Root} {key : AssetKey} {root : Root}

/-- A dependency of the first asset resolved to the second. -/
def Resolves (i : Index) (source target : AssetKey) : Prop :=
  ∃ link ∈ i.links source, link.target = some target

/-- A dependency that starts no bundle resolved to the second asset. -/
def ResolvesSynchronously (i : Index) (source target : AssetKey) : Prop :=
  ∃ link ∈ i.links source, link.target = some target ∧
    (i.triggersOf source link.dependency target).isEmpty = true

/-- The root asset needs the asset at once: along dependencies that start no bundle, or along any
where the output is a single file. -/
def Needs (i : Index) (key : AssetKey) (root : Root) (x : AssetKey) : Prop :=
  if root.isSingleFile = true then ReflTransGen i.Resolves key x
  else ReflTransGen i.ResolvesSynchronously key x

theorem mem_keys_of_links {k : AssetKey} (some : i.links k ≠ []) : k ∈ i.keys := by
  unfold links indexed? at some
  unfold keys size
  rw [List.mem_range]
  by_contra beyond
  rw [List.getElem?_eq_none (Nat.le_of_not_lt beyond)] at some
  exact some rfl

/-- Only assets with a key lead anywhere. -/
theorem mem_keys_of_filterMap {β : Type} {f : Link → Option β} {k : AssetKey}
    (some : (i.links k).filterMap f ≠ []) : k ∈ i.keys := by
  apply mem_keys_of_links
  intro none
  exact some (by rw [none, List.filterMap_nil])

theorem mem_stepsOf {asset : AssetKey} {step : Step} :
    step ∈ i.stepsOf roots key root asset ↔ ∃ link ∈ i.links asset, ∃ target,
      link.target = some target ∧ i.step roots key root asset link.dependency target = step := by
  simp only [stepsOf, List.mem_filterMap, Option.map_eq_some_iff]

/-- The key is that of a root whose bundles may be loaded instead of copied. -/
def ReusableRoot (roots : KeyMap AssetKey Root) (k : AssetKey) : Prop :=
  ∃ root, roots.get? k = some root ∧ root.isReusable = true

section Steps

variable {asset target b : AssetKey} {dependency : Dependency} {e : BundleEdge}

theorem step_eq_enter_iff : i.step roots key root asset dependency target = .enter b ↔
    target = b ∧ (root.isSingleFile = true ∨
      ((i.triggersOf asset dependency target).isEmpty = true ∧
        (target = key ∨ ¬ReusableRoot roots target))) := by
  unfold step ReusableRoot
  rw [← Option.any_eq_true]
  grind

theorem step_eq_cross_iff : i.step roots key root asset dependency target = .cross e ↔
    root.isSingleFile = false ∧ (i.triggersOf asset dependency target).isEmpty = false ∧
      target ≠ key ∧
      e = ⟨key, target, asset, dependency.id, i.triggersOf asset dependency target⟩ := by
  unfold step
  grind

theorem step_eq_reuse_iff : i.step roots key root asset dependency target = .reuse b ↔
    target = b ∧ root.isSingleFile = false ∧
      (i.triggersOf asset dependency target).isEmpty = true ∧ target ≠ key ∧
      ReusableRoot roots target := by
  unfold step ReusableRoot
  rw [← Option.any_eq_true]
  grind

end Steps

/-- One step of the walk of a root. -/
def Enters (i : Index) (roots : KeyMap AssetKey Root) (key : AssetKey) (root : Root)
    (asset target : AssetKey) : Prop :=
  Step.enter target ∈ i.stepsOf roots key root asset

theorem Enters.resolves {asset target : AssetKey} (enters : i.Enters roots key root asset target) :
    i.Resolves asset target := by
  obtain ⟨link, member, _, resolved, enters⟩ := mem_stepsOf.1 enters
  obtain ⟨rfl, _⟩ := step_eq_enter_iff.1 enters
  exact ⟨link, member, resolved⟩

theorem mem_walk {x : AssetKey} :
    x ∈ i.walk roots key root ↔ ReflTransGen (i.Enters roots key root) key x := by
  have entered (a b : AssetKey) :
      b ∈ (i.stepsOf roots key root a).filterMap Step.entered? ↔ i.Enters roots key root a b := by
    simp only [List.mem_filterMap, Step.entered?_eq_some_iff, exists_eq_right]
    rfl
  have step : Walk.Follows (fun a => (i.stepsOf roots key root a).filterMap Step.entered?) =
      i.Enters roots key root := by
    funext a b
    exact propext (entered a b)
  have covered : ∀ a, (i.stepsOf roots key root a).filterMap Step.entered? ≠ [] → a ∈ i.keys := by
    intro a some
    rw [stepsOf, List.filterMap_filterMap] at some
    exact mem_keys_of_filterMap some
  rw [walk, Walk.mem_explore_iff covered, step]
  simp

theorem mem_reachedBy {x : AssetKey} :
    x ∈ (i.reach roots).reachedBy key ↔
      ∃ root, roots.get? key = some root ∧ ReflTransGen (i.Enters roots key root) key x := by
  unfold reach
  simp only [Reach.mem_reachedBy_ofList, List.mem_flatMap, List.mem_map, Prod.mk.injEq, mem_walk]
  constructor
  · intro listed
    obtain ⟨⟨_, root⟩, entry, _, walked, rfl, rfl⟩ := listed
    exact ⟨root, KeyMap.get?_eq_some_iff.2 entry, walked⟩
  · intro found
    obtain ⟨root, entry, walked⟩ := found
    exact ⟨(key, root), KeyMap.get?_eq_some_iff.1 entry, x, walked, rfl, rfl⟩

theorem mem_reusedRoots {a b : AssetKey} :
    (a, b) ∈ i.reusedRoots roots ↔ ∃ root, roots.get? a = some root ∧
      ∃ asset, ReflTransGen (i.Enters roots a root) a asset ∧
        Step.reuse b ∈ i.stepsOf roots a root asset := by
  unfold reusedRoots
  simp only [KeySet.mem_ofList, List.mem_flatMap, List.mem_map, List.mem_filterMap, walkSteps,
    mem_walk, Step.reused?_eq_some_iff, exists_eq_right]
  constructor
  · intro found
    obtain ⟨⟨key, root⟩, entry, target, ⟨asset, walked, member⟩, same⟩ := found
    cases same
    exact ⟨root, KeyMap.get?_eq_some_iff.2 entry, asset, walked, member⟩
  · intro found
    obtain ⟨root, entry, asset, walked, member⟩ := found
    exact ⟨(a, root), KeyMap.get?_eq_some_iff.1 entry, b, ⟨asset, walked, member⟩, rfl⟩

/-- What is reused is a root whose bundles may be loaded instead of copied. -/
theorem exists_reusable_of_reuse {asset target : AssetKey}
    (reuses : Step.reuse target ∈ i.stepsOf roots key root asset) :
    ∃ other, roots.get? target = some other ∧ other.isReusable = true := by
  obtain ⟨link, member, _, _, reuses⟩ := mem_stepsOf.1 reuses
  obtain ⟨rfl, _, _, _, reusable⟩ := step_eq_reuse_iff.1 reuses
  exact reusable

theorem exists_root_of_reuse {asset target : AssetKey}
    (reuses : Step.reuse target ∈ i.stepsOf roots key root asset) :
    ∃ other, roots.get? target = some other := by
  obtain ⟨other, isRoot, _⟩ := exists_reusable_of_reuse reuses
  exact ⟨other, isRoot⟩

theorem mem_bundleEdges {e : BundleEdge} :
    e ∈ i.bundleEdges roots ↔ ∃ key root, roots.get? key = some root ∧
      ∃ asset, ReflTransGen (i.Enters roots key root) key asset ∧
        Step.cross e ∈ i.stepsOf roots key root asset := by
  unfold bundleEdges
  rw [mem_dropRepeated, (perm_arrange _ _).mem_iff]
  simp only [List.mem_flatMap, List.mem_filterMap, walkSteps, mem_walk, Step.crossed?_eq_some_iff,
    exists_eq_right]
  constructor
  · intro found
    obtain ⟨⟨key, root⟩, entry, asset, walked, member⟩ := found
    exact ⟨key, root, KeyMap.get?_eq_some_iff.2 entry, asset, walked, member⟩
  · intro found
    obtain ⟨key, root, entry, asset, walked, member⟩ := found
    exact ⟨(key, root), KeyMap.get?_eq_some_iff.1 entry, asset, walked, member⟩

/-- Where a walk crosses into another bundle, a dependency starts one. -/
theorem cross_cases {asset : AssetKey} {e : BundleEdge}
    (crossing : Step.cross e ∈ i.stepsOf roots key root asset) :
    e.source = key ∧ e.declaredBy = asset ∧ ∃ link ∈ i.links asset, link.target = some e.target ∧
      e.dependencyId = link.dependency.id ∧
      e.triggers = i.triggersOf asset link.dependency e.target ∧ e.triggers.isEmpty = false := by
  obtain ⟨link, member, target, resolved, crosses⟩ := mem_stepsOf.1 crossing
  obtain ⟨_, started, _, rfl⟩ := step_eq_cross_iff.1 crosses
  exact ⟨rfl, rfl, link, member, resolved, rfl, rfl, started⟩

/-- An edge stands for a dependency that starts a bundle. -/
theorem link_of_mem_bundleEdges {e : BundleEdge} (listed : e ∈ i.bundleEdges roots) :
    ∃ link ∈ i.links e.declaredBy, link.target = some e.target ∧
      e.dependencyId = link.dependency.id ∧
      e.triggers = i.triggersOf e.declaredBy link.dependency e.target ∧
      e.triggers.isEmpty = false := by
  obtain ⟨key, root, _, asset, _, crossing⟩ := mem_bundleEdges.1 listed
  obtain ⟨_, rfl, link⟩ := cross_cases crossing
  exact link

/-- Where a walk meets a dependency that starts no bundle, it goes on to its target or finds that
the target is reused. -/
theorem enter_or_reuse_of_synchronous {asset target : AssetKey}
    (resolves : i.ResolvesSynchronously asset target) :
    i.Enters roots key root asset target ∨
      (Step.reuse target ∈ i.stepsOf roots key root asset ∧
        ∃ other, roots.get? target = some other) := by
  obtain ⟨link, member, resolved, none⟩ := resolves
  by_cases goesOn : root.isSingleFile = true ∨ target = key ∨ ¬ReusableRoot roots target
  · refine .inl (mem_stepsOf.2 ⟨link, member, target, resolved, step_eq_enter_iff.2 ⟨rfl, ?_⟩⟩)
    exact goesOn.imp_right fun stays => ⟨none, stays⟩
  · simp only [not_or, Bool.not_eq_true, not_not] at goesOn
    obtain ⟨single, other, reusable⟩ := goesOn
    have reuses := step_eq_reuse_iff.2 ⟨rfl, single, none, other, reusable⟩
    obtain ⟨reused, isRoot, _⟩ := reusable
    exact .inr ⟨mem_stepsOf.2 ⟨link, member, target, resolved, reuses⟩, reused, isRoot⟩

theorem enters_of_singleFile (single : root.isSingleFile = true) {asset target : AssetKey}
    (resolves : i.Resolves asset target) : i.Enters roots key root asset target := by
  obtain ⟨link, member, resolved⟩ := resolves
  exact mem_stepsOf.2 ⟨link, member, target, resolved, step_eq_enter_iff.2 ⟨rfl, .inl single⟩⟩

/-- Whatever a root needs is reached by it or by a root that is loaded with it through reuse. -/
theorem reached_of_needs {p : Plan} (sameReused : p.reused = i.reusedRoots roots)
    (found : roots.get? key = some root) {x : AssetKey} (needs : i.Needs key root x) :
    ∃ s, ReflTransGen p.Reuses key s ∧ x ∈ (i.reach roots).reachedBy s := by
  unfold Needs at needs
  split at needs
  · rename_i single
    refine ⟨key, .refl, mem_reachedBy.2 ⟨root, found, ?_⟩⟩
    exact ReflTransGen.mono (fun a b resolves => enters_of_singleFile single resolves) _ _ needs
  · induction needs with
    | refl => exact ⟨key, .refl, mem_reachedBy.2 ⟨root, found, .refl⟩⟩
    | @tail y z _ resolves ih =>
      obtain ⟨s, chain, reached⟩ := ih
      obtain ⟨other, known, walked⟩ := mem_reachedBy.1 reached
      have goesOn : i.Enters roots s other y z ∨ _ := enter_or_reuse_of_synchronous resolves
      rcases goesOn with enters | ⟨reuses, next⟩
      · exact ⟨s, chain, mem_reachedBy.2 ⟨other, known, walked.tail enters⟩⟩
      · obtain ⟨r, nextKnown⟩ := next
        have pair : p.Reuses s z := by
          unfold Plan.Reuses
          rw [sameReused]
          exact mem_reusedRoots.2 ⟨other, known, y, walked, reuses⟩
        exact ⟨z, chain.tail pair, mem_reachedBy.2 ⟨r, nextKnown, .refl⟩⟩

end Index

end CodeSplit
