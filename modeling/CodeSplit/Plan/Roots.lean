import CodeSplit.Index
import CodeSplit.Plan
import CodeSplit.Report

/-!
The collector of bundle roots: the entries of a target, and every asset behind a dependency that
starts a bundle and is declared by an asset that can be reached from the entries. Each time the walk
meets something that creates a root, the root and its naming are added to.
-/
namespace CodeSplit

/-- A dependency that starts a bundle. -/
structure Boundary where
  source : AssetKey
  target : AssetKey
  dependency : Dependency
  triggers : Triggers
  deriving DecidableEq, Repr

/-- What makes an asset a root. -/
structure Creation where
  asset : AssetKey
  dependency : Dependency
  triggers : Triggers
  deriving DecidableEq, Repr

def Boundary.creation (b : Boundary) : Creation := ⟨b.target, b.dependency, b.triggers⟩

def Entry.creation (e : Entry) : Creation := ⟨e.asset, e.dependency, { entry := true }⟩

namespace Index

/-- Assets that the dependencies of an asset resolved to. -/
def successors (i : Index) (k : AssetKey) : List AssetKey := (i.links k).filterMap Link.target

/-- Assets that can be reached from the entries, in the order of a depth-first walk. -/
def reachable (i : Index) (entries : List Entry) : List AssetKey :=
  Walk.explore i.successors i.keys (entries.map Entry.asset)

/-- The dependencies of an asset that start a bundle. -/
def boundariesOf (i : Index) (k : AssetKey) : List Boundary :=
  (i.links k).filterMap fun link =>
    link.target.bind fun target =>
      let triggers := i.triggersOf k link.dependency target
      if triggers.isEmpty then none else some ⟨k, target, link.dependency, triggers⟩

def boundaries (i : Index) (entries : List Entry) : List Boundary :=
  (i.reachable entries).flatMap i.boundariesOf

/-- Everything that makes an asset a root, entries first. -/
def creations (i : Index) (entries : List Entry) : List Creation :=
  entries.map Entry.creation ++ (i.boundaries entries).map Boundary.creation

end Index

/-- An asset as a root that nothing has created yet. -/
def Root.ofAsset (asset : Asset) : Root where
  assetId := asset.id
  env := asset.env
  fileType := asset.fileType
  isSplittable := asset.isSplittable

/-- The roots found so far, with the id and the chunk name of the dependency that names each. -/
structure RootCollection where
  roots : KeyMap AssetKey Root := ∅
  naming : KeyMap AssetKey (String × Option String) := ∅
  deriving DecidableEq, Repr

namespace RootCollection

/-- Makes an asset a root, or adds to the triggers of the root that it is. -/
def addRoot (c : RootCollection) (key : AssetKey) (asset : Asset) (triggers : Triggers) :
    RootCollection :=
  { c with roots := c.roots.update key (.ofAsset asset) fun root =>
      { root with triggers := root.triggers.union triggers } }

/-- Notes what a dependency says of the name of a root. The chunk name is the one of the dependency
with the lowest id, so that it does not depend on the order of the walk. -/
def recordNaming (c : RootCollection) (key : AssetKey) (dependency : Dependency) :
    RootCollection where
  roots :=
    if dependency.needsStableName then
      c.roots.modify key fun root => { root with needsStableName := true }
    else c.roots
  naming :=
    if (c.naming.get? key).all fun named => KeyOrder.before dependency.id named.1 then
      c.naming.insert key (dependency.id, dependency.chunkName)
    else c.naming

def create (i : Index) (c : RootCollection) (creation : Creation) : RootCollection :=
  match i.asset? creation.asset with
  | some asset =>
    (c.addRoot creation.asset asset creation.triggers).recordNaming creation.asset
      creation.dependency
  | none => c

/-- The roots with their chunk names. -/
def named (c : RootCollection) : KeyMap AssetKey Root :=
  c.roots.map fun key root => { root with chunkName := (c.naming.get? key).bind Prod.snd }

end RootCollection

namespace Index

/-- The roots of a target. -/
def roots (i : Index) (entries : List Entry) : KeyMap AssetKey Root :=
  ((i.creations entries).foldl (RootCollection.create i) {}).named

/-- Boundaries by their target and the id of the dependency. -/
def sortedBoundaries (i : Index) (entries : List Entry) : List Boundary :=
  arrange (fun a b => KeyOrder.before (a.target, a.dependency.id) (b.target, b.dependency.id))
    (i.boundaries entries)

def boundaryDecision (i : Index) (b : Boundary) : Except Fault Decision.Kind := do
  return .boundaryCreated (← i.idOf b.target) (← i.idOf b.source) b.dependency.id
    b.dependency.priority b.triggers

/-- Collects the roots of a target and notes what created them. -/
def collectRoots (i : Index) (entries : List Entry) : Report (KeyMap AssetKey Root) := do
  let roots := i.roots entries
  let boundaries ← .ofExcept ((i.sortedBoundaries entries).mapM i.boundaryDecision)
  .decide .roots boundaries
  .decide .roots (roots.values.map fun r => .bundleRootCreated r.assetId r.triggers)
  .event (.counts "ideal graph: collected bundle roots" [
    ("roots", roots.size), ("visited", (i.reachable entries).length)])
  return roots

end Index

end CodeSplit
