import CodeSplit.AssetGraph
import CodeSplit.Keyed.Map

/-!
The asset graph fixture: graphs described by file paths. A path that is first named by a dependency
or an entry gets an asset of ordinary size in the environment of the current target.
-/
namespace CodeSplit

structure Scenario where
  projectRoot : Path := ⟨"/app"⟩
  /-- The target of entries and assets to come. -/
  target : Target := {}
  graph : AssetGraph := {}
  assets : KeyMap String (NodeId × Asset) := ∅
  deriving Inhabited

namespace Scenario

def ordinarySize : Nat := 1000

def withTarget (s : Scenario) (target : Target) : Scenario := { s with target }

/-- Puts an asset into the graph and makes it the asset of `path`. -/
def putAsset (s : Scenario) (path : String) (asset : Asset) : Scenario × NodeId :=
  let (graph, n) := s.graph.addAsset asset
  ({ s with graph, assets := s.assets.insert path (n, asset) }, n)

def assetIn (s : Scenario) (path : String) (size : Nat) (env : Environment) : Scenario :=
  (s.putAsset path (Asset.ofPath (s.projectRoot.join ⟨path⟩) env size)).1

def asset (s : Scenario) (path : String) (size : Nat) : Scenario :=
  s.assetIn path size s.target.env

/-- The asset of a path, made if there is none. -/
def ensureAsset (s : Scenario) (path : String) : Scenario × NodeId × Asset :=
  match s.assets.get? path with
  | some (n, asset) => (s, n, asset)
  | none =>
    let asset := Asset.ofPath (s.projectRoot.join ⟨path⟩) s.target.env ordinarySize
    let (s, n) := s.putAsset path asset
    (s, n, asset)

def configure (s : Scenario) (path : String) (change : Asset → Asset) : Scenario :=
  let (s, _, asset) := s.ensureAsset path
  (s.putAsset path (change asset)).1

def entry (s : Scenario) (path : String) : Scenario :=
  let (s, assetNode, _) := s.ensureAsset path
  let (graph, n) := s.graph.addEntryDependency (Dependency.entry path s.target)
  { s with graph := graph.link n assetNode }

def unresolvedEntry (s : Scenario) (path : String) : Scenario :=
  { s with graph := (s.graph.addEntryDependency (Dependency.entry path s.target)).1 }

/-- Adds a dependency between two paths, with `changes` to what follows from the paths. -/
def dependency (s : Scenario) (source target : String) (changes : Dependency.Draft) : Scenario :=
  let (s, sourceNode, sourceAsset) := s.ensureAsset source
  let (s, targetNode, _) := s.ensureAsset target
  let specifier := changes.specifier.getD ("./" ++ target)
  let env := changes.env.getD sourceAsset.env
  let draft := Dependency.Draft.override
    { sourceAssetId := some sourceAsset.id, sourcePath := some sourceAsset.filePath } changes
  let (graph, n) := s.graph.addDependency (draft.complete specifier env)
  { s with graph := (graph.link sourceNode n).link n targetNode }

def unresolved (s : Scenario) (source specifier : String) : Scenario :=
  let (s, sourceNode, sourceAsset) := s.ensureAsset source
  let draft : Dependency.Draft := {
    sourceAssetId := some sourceAsset.id, isOptional := some true }
  let (graph, n) := s.graph.addDependency (draft.complete specifier sourceAsset.env)
  { s with graph := graph.link sourceNode n }

def getAsset (s : Scenario) (path : String) : Except Fault Asset :=
  match s.assets.get? path with
  | some (_, asset) => .ok asset
  | none => .error (.misuse (.undeclaredAsset path))

def assetId (s : Scenario) (path : String) : Except Fault String := Asset.id <$> s.getAsset path

/-- Ids of the given paths in ascending order. -/
def assetIds (s : Scenario) (paths : List String) : Except Fault (List String) := do
  return arrange KeyOrder.before (← paths.mapM s.assetId)

def pathOf? (s : Scenario) (assetId : String) : Option String :=
  (s.assets.entries.find? fun e => e.2.2.id = assetId).map Prod.fst

end Scenario

end CodeSplit
