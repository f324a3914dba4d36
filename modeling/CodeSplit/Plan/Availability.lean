import CodeSplit.Plan.Reach

/-!
The availability resolver: which assets are loaded already whenever a root loads. A group relies on
what each of the groups that can load it offers: what was available to that parent, and what the
parent loads itself. A root then packages only what it cannot rely on. Groups that load each other
are taken together, circle by circle. Nothing is assumed of how an order or the circles are found.
-/
namespace CodeSplit

/-- The groups of a plan, which groups can load which, and what each loads itself. -/
structure GroupGraph where
  groups : List AssetKey
  parents : KeyMap AssetKey (KeySet AssetKey) := ∅
  loaded : KeyMap AssetKey (KeySet AssetKey) := ∅
  deriving DecidableEq, Repr, Inhabited

namespace GroupGraph

def parentsOf (g : GroupGraph) (group : AssetKey) : KeySet AssetKey :=
  (g.parents.get? group).getD ∅

def loadedBy (g : GroupGraph) (group : AssetKey) : KeySet AssetKey := (g.loaded.get? group).getD ∅

/-- Takes groups whose parents have been taken until none is left. -/
def orderFrom? (g : GroupGraph) : (fuel : Nat) → (taken rest : List AssetKey) →
    Option (List AssetKey)
  | _, taken, [] => some taken.reverse
  | 0, _, _ :: _ => none
  | fuel + 1, taken, rest =>
    match rest.find? fun n => (g.parentsOf n).toList.all fun p => decide (p ∈ taken) with
    | some n => orderFrom? g fuel (n :: taken) (rest.erase n)
    | none => none

/-- The groups in an order that has every parent before its children, if there is one. -/
def order? (g : GroupGraph) : Option (List AssetKey) := g.orderFrom? g.groups.length [] g.groups

/-- What a parent offers to the groups that it loads. -/
def offer (g : GroupGraph) (available : KeyMap AssetKey (KeySet AssetKey)) (parent : AssetKey) :
    Except Fault (KeySet AssetKey) :=
  match available.get? parent with
  | some assets => .ok (assets.union (g.loadedBy parent))
  | none => .error (.failure .parentOutOfOrder)

/-- Adds the availability of a group: what all of its parents offer. -/
def extendAvailability (g : GroupGraph) (available : KeyMap AssetKey (KeySet AssetKey))
    (group : AssetKey) : Except Fault (KeyMap AssetKey (KeySet AssetKey)) := do
  let offers ← (g.parentsOf group).toList.mapM (g.offer available)
  return available.insert group ((KeySet.intersection? offers).getD ∅)

/-- Availability of the groups, computed in an order that has parents before children. -/
def availabilityAlong (g : GroupGraph) (order : List AssetKey) :
    Except Fault (KeyMap AssetKey (KeySet AssetKey)) :=
  order.foldlM g.extendAvailability ∅

/-- Groups that can come before a group, itself included. -/
def ancestors (g : GroupGraph) (group : AssetKey) : KeySet AssetKey :=
  KeySet.ofList (Walk.explore (fun n => (g.parentsOf n).toList) g.groups [group])

/-- The circles of the graph: groups that can load each other, and groups on their own. -/
def circles (g : GroupGraph) : List (List AssetKey) :=
  let ancestors := KeyMap.ofList (g.groups.map fun n => (n, g.ancestors n))
  let precedes (a b : AssetKey) : Bool := (ancestors.get? b).any fun s => decide (a ∈ s)
  let circleOf (n : AssetKey) : List AssetKey :=
    g.groups.filter fun m => precedes m n && precedes n m
  (KeySet.ofList (g.groups.map circleOf)).toList

/-- The place of the circle that each group is in. -/
def circleTable (circles : List (List AssetKey)) : KeyMap AssetKey Nat :=
  KeyMap.ofList <| circles.zipIdx.flatMap fun (circle, c) => circle.map (·, c)

/-- From circles to others that they can load, since a group in the one can load one in the other.
-/
def circleEdges (g : GroupGraph) (circles : List (List AssetKey)) : List (Nat × Nat) :=
  let table := circleTable circles
  g.groups.flatMap fun child =>
    (g.parentsOf child).toList.filterMap fun parent => do
      let source ← table.get? parent
      let target ← table.get? child
      if source = target then none else some (source, target)

/-- The circles as groups, which are known by their places. -/
def circleGraph (g : GroupGraph) (circles : List (List AssetKey)) : GroupGraph :=
  let edges := g.circleEdges circles
  { groups := List.range circles.length
    parents := KeyMap.ofList <| (List.range circles.length).map fun c =>
      (c, KeySet.ofList ((edges.filter fun e => e.2 = c).map Prod.fst)) }

/-- What each circle offers to the circles that it can load, and what is available to groups. -/
structure CircleTables where
  offered : List (KeySet AssetKey)
  available : KeyMap AssetKey (KeySet AssetKey) := ∅
  deriving DecidableEq, Repr

/-- What all of some circles offer. -/
def CircleTables.sharedOffer (t : CircleTables) (parents : KeySet Nat) : KeySet AssetKey :=
  (KeySet.intersection? (parents.toList.map fun p => t.offered[p]?.getD ∅)).getD ∅

/-- Fills in the tables for a circle. Its groups have the same available, and it offers this along
with what any of them loads. -/
def takeCircle (g : GroupGraph) (circles : List (List AssetKey)) (t : CircleTables) (c : Nat) :
    CircleTables :=
  let shared := t.sharedOffer ((g.circleGraph circles).parentsOf c)
  let members := circles[c]?.getD []
  { offered := t.offered.set c (members.foldl (fun s n => s.union (g.loadedBy n)) shared)
    available := members.foldl (fun available n => available.insert n shared) t.available }

/-- Fills in the tables circle by circle, in an order that has parents before children. -/
def fillCircles (g : GroupGraph) (circles : List (List AssetKey)) (order : List Nat) :
    CircleTables :=
  order.foldl (g.takeCircle circles) { offered := List.replicate circles.length ∅ }

/-- Availability of the groups if they can load each other in a circle. -/
def availabilityByCircles (g : GroupGraph) : Except Fault (KeyMap AssetKey (KeySet AssetKey)) :=
  match (g.circleGraph g.circles).order? with
  | none => .error (.failure .cyclicCondensation)
  | some order => .ok (g.fillCircles g.circles order).available

/-- Availability at the start of each group. -/
def availability (g : GroupGraph) : Report (KeyMap AssetKey (KeySet AssetKey)) :=
  match g.order? with
  | some order => do
    let available ← .ofExcept (g.availabilityAlong order)
    .event (.counts "ideal graph: computed availability (dag)" [("groups", available.size)])
    return available
  | none => do
    .event (.counts
      "ideal graph: bundle groups have cycles; computing availability via SCC condensation" [])
    let available ← .ofExcept g.availabilityByCircles
    .event (.counts "ideal graph: computed availability (scc)" [("groups", available.size)])
    return available

end GroupGraph

namespace Plan

/-- Whether an edge loads a group that relies on what its parents have loaded. -/
def passesAvailability (p : Plan) (e : BundleEdge) : Bool :=
  e.triggers.createsGroup && (p.root? e.target).any fun r => !r.triggers.startsEmpty

/-- The groups that can load a group. -/
def parentGroups (p : Plan) (groups : List AssetKey) (group : AssetKey) : KeySet AssetKey :=
  KeySet.unions <| (p.edges.filter fun e => e.target = group && p.passesAvailability e).map fun e =>
    ((p.allGroups e.source).erase group).filter fun parent => decide (parent ∈ groups)

/-- What the members of a group load. -/
def groupLoads (p : Plan) (reach : Reach) (group : AssetKey) : KeySet AssetKey :=
  KeySet.unions <| (p.roots.keys.filter fun r => decide (group ∈ p.allGroups r)).map reach.reachedBy

def groupGraph (p : Plan) (reach : Reach) : Except Fault GroupGraph :=
  let groups := p.groupRoots
  if p.edges.any fun e => p.passesAvailability e && decide (e.target ∉ groups) then
    .error (.failure .rootWithoutGroup)
  else .ok
    { groups
      parents := KeyMap.ofList (groups.map fun n => (n, p.parentGroups groups n))
      loaded := KeyMap.ofList (groups.map fun n => (n, p.groupLoads reach n)) }

/-- What is available in all groups that a root belongs to. -/
def availableInGroups (p : Plan) (available : KeyMap AssetKey (KeySet AssetKey))
    (root : AssetKey) : KeySet AssetKey :=
  let each := (p.groupsOf root).toList.map fun group => (available.get? group).getD ∅
  (KeySet.intersection? each).getD ∅

/-- What a root can rely on when its group loads, reuse apart. A root that is loaded along with
others relies on what each of these offers. -/
def baseAvailability (p : Plan) (reach : Reach) (available : KeyMap AssetKey (KeySet AssetKey))
    (key : AssetKey) (root : Root) : KeySet AssetKey :=
  if root.triggers.createsGroup then p.availableInGroups available key
  else
    let loaders := p.edges.filter fun e => e.target = key && !e.triggers.createsGroup
    let offers := loaders.map fun e =>
      (p.availableInGroups available e.source).union (reach.reachedBy e.source)
    (KeySet.intersection? offers).getD ∅

/-- The assets that are loaded whenever a root loads. A reused root may be loaded in any group of
those that reuse it, and a root has what it reuses. -/
def rootAvailability (p : Plan) (reach : Reach) (available : KeyMap AssetKey (KeySet AssetKey))
    (key : AssetKey) (root : Root) : KeySet AssetKey :=
  if root.triggers.startsEmpty || root.isSingleFile then ∅
  else
    let base := p.baseAvailability reach available key root
    let common := (p.reusersClosure key).toList.foldl
      (fun s reuser => s.inter (p.availableInGroups available reuser)) base
    (p.reusedClosure key).toList.foldl (fun s reused => s.union (reach.reachedBy reused)) common

/-- The roots that have to package an asset which `roots` reach. A root keeps its own asset; if all
of them rely on others, all package it. -/
def packagers (available : KeyMap AssetKey (KeySet AssetKey)) (asset : AssetKey)
    (roots : KeySet AssetKey) : KeySet AssetKey :=
  let needed := roots.filter fun r =>
    r = asset || !(available.get? r).any fun s => decide (asset ∈ s)
  if needed.isEmpty then roots else needed

/-- The number of copies that roots can do without, those that are packaged after all included. -/
def droppedCount (available : KeyMap AssetKey (KeySet AssetKey)) (asset : AssetKey)
    (roots : KeySet AssetKey) : Nat :=
  (roots.filter fun r =>
    !(r = asset || !(available.get? r).any fun s => decide (asset ∈ s))).size

def availabilityDecision (i : Index) (e : AssetKey × KeySet AssetKey) :
    Except Fault Decision.Kind := do
  return .availabilityComputed (← i.idOf e.1) e.2.size

/-- The roots that have to package each asset. -/
def consumers (p : Plan) (i : Index) (reach : Reach) :
    Report (KeyMap AssetKey (KeySet AssetKey)) := do
  let graph ← .ofExcept (p.groupGraph reach)
  let groups ← graph.availability
  let available := p.roots.map (p.rootAvailability reach groups)
  .decide .availability (← .ofExcept (available.entries.mapM (availabilityDecision i)))
  let reached := reach.byAsset
  let consumers := reached.map (packagers available)
  .event (.counts "ideal graph: computed consumers" [
    ("assets", consumers.size),
    ("dropped", total (reached.map (droppedCount available)).values)])
  return consumers

end Plan

end CodeSplit
