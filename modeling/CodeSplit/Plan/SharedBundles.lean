import CodeSplit.Config
import CodeSplit.Index
import CodeSplit.Plan
import CodeSplit.Report

/-!
The automatic shared bundler, which places assets. An asset goes into the bundles of the roots that
need it, or, if enough roots need it, into a bundle for all assets of its type that the same roots
need. A shared bundle that is too small to be worth a request is dissolved into its roots.
-/
namespace CodeSplit

/-- Assets placed so far, and assets that are to be shared, by the roots that need them and type. -/
structure Sharing where
  plan : Plan
  provisional : KeyMap (List AssetKey × FileType) (KeySet AssetKey) := ∅
  /-- The number of assets that are in the bundles of several roots. -/
  duplicated : Nat := 0
  deriving DecidableEq, Repr

namespace Plan

variable (p : Plan) (i : Index) (config : Config)

/-- Whether a root loads no shared bundle. -/
def packagesDirectly (root : AssetKey) : Bool := (p.root? root).all Root.isEntryLike

def isShareable (claimed : KeySet AssetKey) (key : AssetKey) (asset : Asset)
    (candidates : List AssetKey) : Bool :=
  !config.disableSharedBundles && !decide (key ∈ claimed) && !p.roots.contains key &&
    asset.isSplittable && config.sharedThreshold ≤ candidates.length

/-- Adds an asset to the bundles of several roots. -/
def packInto (roots : List AssetKey) (fileType : FileType) (asset : AssetKey) : Plan :=
  roots.foldl (fun p root => p.pack root fileType asset) p

end Plan

namespace Sharing

variable (i : Index) (config : Config)

/-- Places an asset into the bundles of its consumers, or sets it aside to be shared. -/
def consider (claimed : KeySet AssetKey) (s : Sharing) (e : AssetKey × KeySet AssetKey) :
    Except Fault Sharing := do
  let (key, consumers) := e
  let asset ← i.asset key
  let direct := consumers.toList.filter s.plan.packagesDirectly
  let candidates := consumers.toList.filter fun r => !s.plan.packagesDirectly r
  if s.plan.isShareable config claimed key asset candidates then
    return { s with
      plan := s.plan.packInto direct asset.fileType key
      provisional := s.provisional.update (candidates, asset.fileType) ∅ (·.insert key) }
  else
    return { s with
      plan := s.plan.packInto consumers.toList asset.fileType key
      duplicated := s.duplicated + if 1 < consumers.size then 1 else 0 }

/-- Makes a shared bundle, or dissolves it if it is too small. -/
def settle (p : Plan) (e : (List AssetKey × FileType) × KeySet AssetKey) : Report Plan := do
  let ((roots, fileType), assets) := e
  let size ← .ofExcept (i.totalSize assets)
  let rootIds ← .ofExcept (roots.mapM i.idOf)
  if size < config.minBundleSize then
    .decide .shared [.sharedBundleDissolved fileType rootIds .belowMinBundleSize]
    return roots.foldl (fun p root => p.packAll root fileType assets.toList) p
  else
    .decide .shared [.sharedBundleCreated fileType rootIds assets.size size]
    return { p with sharedBundles := p.sharedBundles ++
      [{ fileType, assets, consumers := KeySet.ofList roots, size }] }

end Sharing

/-- Places every asset that has consumers. -/
def Plan.shareAssets (p : Plan) (i : Index) (config : Config) (claimed : KeySet AssetKey)
    (consumers : KeyMap AssetKey (KeySet AssetKey)) : Report Plan := do
  let s ← .ofExcept (consumers.entries.foldlM (Sharing.consider i config claimed) ⟨p, ∅, 0⟩)
  let shared ← s.provisional.entries.foldlM (Sharing.settle i config) s.plan
  .event (.counts "ideal graph: placed assets" [
    ("shared_bundles", shared.sharedBundles.length), ("duplicated", s.duplicated)])
  return shared

end CodeSplit
