import CodeSplit.Plan.Roots

/-!
The naive bundler and its reachability index: what each root reaches without crossing into another
bundle, and where its walk stops, at dependencies that start a bundle and at roots whose bundles can
be loaded instead of copied. The index keeps what was reached by asset and by root.
-/
namespace CodeSplit

/-- Two tables hold the same pairs, the one by asset and the other by root, and no empty sets. -/
structure Reach.InStep (byAsset byRoot : KeyMap AssetKey (KeySet AssetKey)) : Prop where
  agree : ∀ root asset, root ∈ byAsset.setAt asset ↔ asset ∈ byRoot.setAt root
  reached : byAsset.NoneEmpty
  reaching : byRoot.NoneEmpty

/-- Which roots reach which assets, their own included. -/
structure Reach where
  byAsset : KeyMap AssetKey (KeySet AssetKey)
  byRoot : KeyMap AssetKey (KeySet AssetKey)
  inStep : Reach.InStep byAsset byRoot
  deriving DecidableEq, Repr

namespace Reach

theorem InStep.empty : InStep ∅ ∅ where
  agree _ _ := iff_of_false (KeySet.not_mem_empty _) (KeySet.not_mem_empty _)
  reached _ _ found := by cases found
  reaching _ _ found := by cases found

instance : EmptyCollection Reach := ⟨⟨∅, ∅, .empty⟩⟩

instance : Inhabited Reach := ⟨∅⟩

/-- Adding a pair to both tables keeps them in step. -/
theorem InStep.insert {byAsset byRoot : KeyMap AssetKey (KeySet AssetKey)}
    (inStep : InStep byAsset byRoot) (root asset : AssetKey) :
    InStep (byAsset.update asset ∅ (·.insert root)) (byRoot.update root ∅ (·.insert asset)) := by
  refine ⟨?_, inStep.reached.update_insert asset root, inStep.reaching.update_insert root asset⟩
  intro r x
  rw [KeyMap.mem_setAt_update_insert, KeyMap.mem_setAt_update_insert, inStep.agree r x, and_comm]

def insert (r : Reach) (root asset : AssetKey) : Reach where
  byAsset := r.byAsset.update asset ∅ (·.insert root)
  byRoot := r.byRoot.update root ∅ (·.insert asset)
  inStep := r.inStep.insert root asset

/-- The reach of pairs of a root and an asset that it reaches. -/
def ofList (pairs : List (AssetKey × AssetKey)) : Reach :=
  pairs.foldl (fun r pair => r.insert pair.1 pair.2) ∅

def reachedBy (r : Reach) (root : AssetKey) : KeySet AssetKey := r.byRoot.setAt root

def reaches (r : Reach) (root asset : AssetKey) : Bool := decide (asset ∈ r.reachedBy root)

/-- Roots that reach an asset. -/
def rootsReaching (r : Reach) (asset : AssetKey) : KeySet AssetKey := r.byAsset.setAt asset

def assetCount (r : Reach) : Nat := r.byAsset.size

theorem mem_rootsReaching {r : Reach} {root asset : AssetKey} :
    root ∈ r.rootsReaching asset ↔ asset ∈ r.reachedBy root :=
  r.inStep.agree root asset

theorem mem_reachedBy_insert {r : Reach} {root asset key x : AssetKey} :
    x ∈ (r.insert root asset).reachedBy key ↔ (key = root ∧ x = asset) ∨ x ∈ r.reachedBy key :=
  KeyMap.mem_setAt_update_insert

theorem mem_reachedBy_foldl_insert (pairs : List (AssetKey × AssetKey)) (r : Reach)
    {key x : AssetKey} :
    x ∈ (pairs.foldl (fun r pair => r.insert pair.1 pair.2) r).reachedBy key ↔
      x ∈ r.reachedBy key ∨ (key, x) ∈ pairs := by
  induction pairs generalizing r with
  | nil => simp
  | cons pair pairs ih =>
    rw [List.foldl_cons, ih, mem_reachedBy_insert, List.mem_cons, Prod.ext_iff, or_assoc,
      or_left_comm]

theorem mem_reachedBy_ofList {pairs : List (AssetKey × AssetKey)} {key x : AssetKey} :
    x ∈ (ofList pairs).reachedBy key ↔ (key, x) ∈ pairs := by
  have nothing : x ∉ (∅ : Reach).reachedBy key := KeySet.not_mem_empty x
  rw [ofList, mem_reachedBy_foldl_insert, or_iff_right nothing]

/-- Two reaches of the same pairs have the same tables. -/
theorem ext {r t : Reach} (same : ∀ root x, x ∈ r.reachedBy root ↔ x ∈ t.reachedBy root) :
    r = t := by
  have byRoot : r.byRoot = t.byRoot := r.inStep.reaching.eq_of_setAt t.inStep.reaching same
  have byAsset : r.byAsset = t.byAsset := by
    refine r.inStep.reached.eq_of_setAt t.inStep.reached ?_
    intro asset root
    rw [r.inStep.agree, t.inStep.agree, byRoot]
  cases r
  cases t
  cases byRoot
  cases byAsset
  rfl

end Reach

/-- How the walk of a root treats a dependency. -/
inductive Step where
  /-- The target belongs to the root. -/
  | enter (asset : AssetKey)
  /-- The dependency loads another bundle. -/
  | cross (edge : BundleEdge)
  /-- The bundles of the target are loaded along with the root. -/
  | reuse (root : AssetKey)
  | skip
  deriving DecidableEq, Repr

namespace Step

def entered? : Step → Option AssetKey
  | .enter a => some a
  | _ => none

def crossed? : Step → Option BundleEdge
  | .cross e => some e
  | _ => none

def reused? : Step → Option AssetKey
  | .reuse r => some r
  | _ => none

end Step

/-- A walk from each root. -/
structure Walks where
  /-- Ordered by source, target and id of the dependency. -/
  edges : List BundleEdge := []
  reused : KeySet (AssetKey × AssetKey) := ∅
  reach : Reach := ∅
  deriving DecidableEq, Repr, Inhabited

/-- Drops elements equal to the one before them. -/
def dropRepeated {α : Type} [DecidableEq α] : List α → List α
  | [] => []
  | [x] => [x]
  | x :: y :: rest => if x = y then dropRepeated (y :: rest) else x :: dropRepeated (y :: rest)

namespace Index

variable (i : Index) (roots : KeyMap AssetKey Root)

/-- How the walk of `root`, which has `key`, treats a dependency of `asset` that resolved to
`target`. Single-file output follows every dependency. -/
def step (key : AssetKey) (root : Root) (asset : AssetKey) (dependency : Dependency)
    (target : AssetKey) : Step :=
  if root.isSingleFile then .enter target
  else
    let triggers := i.triggersOf asset dependency target
    if !triggers.isEmpty then
      if target = key then .skip else .cross ⟨key, target, asset, dependency.id, triggers⟩
    else if target ≠ key ∧ (roots.get? target).any Root.isReusable then .reuse target
    else .enter target

def stepsOf (key : AssetKey) (root : Root) (asset : AssetKey) : List Step :=
  (i.links asset).filterMap fun link =>
    link.target.map fun target => i.step roots key root asset link.dependency target

/-- The walk of a root: the assets it reaches, in order. -/
def walk (key : AssetKey) (root : Root) : List AssetKey :=
  Walk.explore (fun a => (i.stepsOf roots key root a).filterMap Step.entered?) i.keys [key]

/-- All steps of the walk of a root. -/
def walkSteps (key : AssetKey) (root : Root) : List Step :=
  (i.walk roots key root).flatMap (i.stepsOf roots key root)

def bundleEdges : List BundleEdge :=
  let found := roots.entries.flatMap fun (key, root) =>
    (i.walkSteps roots key root).filterMap Step.crossed?
  dropRepeated <| arrange (fun a b =>
    KeyOrder.before (a.source, a.target, a.dependencyId) (b.source, b.target, b.dependencyId)) found

def reusedRoots : KeySet (AssetKey × AssetKey) :=
  KeySet.ofList <| roots.entries.flatMap fun (key, root) =>
    ((i.walkSteps roots key root).filterMap Step.reused?).map fun target => (key, target)

def reach : Reach :=
  .ofList <| roots.entries.flatMap fun (key, root) => (i.walk roots key root).map fun a => (key, a)

def walks : Walks := ⟨i.bundleEdges roots, i.reusedRoots roots, i.reach roots⟩

def reuseDecision (pair : AssetKey × AssetKey) : Except Fault Decision.Kind := do
  return .bundleReused (← i.idOf pair.2) (← i.idOf pair.1)

/-- Walks from each root and notes which roots are reused. -/
def walkRoots : Report Walks := do
  let walks := i.walks roots
  .decide .reachability (← .ofExcept (walks.reused.toList.mapM i.reuseDecision))
  .event (.counts "ideal graph: walked bundle roots" [
    ("roots", roots.size),
    ("reached_assets", walks.reach.assetCount),
    ("bundle_edges", walks.edges.length),
    ("reused", walks.reused.size)])
  return walks

end Index

end CodeSplit
