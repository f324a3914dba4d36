import CodeSplit.Config
import CodeSplit.Digest
import CodeSplit.Index
import CodeSplit.Plan
import CodeSplit.Report

/-!
The extractor of manual shared bundles. Assets that the configuration names leave the roots that
need them and go to the bundle of the first rule that matches. Single-file, inline and isolated
roots keep their copies.
-/
namespace CodeSplit

/-- Whether assets may be moved from the bundles of this root into a manual bundle. -/
def Root.isExtractable (r : Root) : Bool :=
  !r.isSingleFile && !r.triggers.inline && !r.triggers.isolated

/-- What has been moved so far. -/
structure Extraction where
  bundles : KeyMap ManualKey ManualBundle := ∅
  /-- The roots that still have to package each asset. -/
  consumers : KeyMap AssetKey (KeySet AssetKey) := ∅
  claimed : KeySet AssetKey := ∅
  deriving DecidableEq, Repr, Inhabited

namespace Extraction

/-- Moves an asset from some of its consumers into a bundle. -/
def move (e : Extraction) (key : ManualKey) (asset : AssetKey) (consumers moved : KeySet AssetKey) :
    Extraction where
  bundles := e.bundles.update key {} fun b =>
    { assets := b.assets.insert asset, consumers := b.consumers.union moved }
  consumers := e.consumers.insert asset (consumers.diff moved)
  claimed := e.claimed.insert asset

end Extraction

namespace ManualRule

/-- The partition of an asset, by the hash of its id. -/
def partitionOf (rule : ManualRule) (assetId : String) : Except Fault Nat :=
  if rule.split = 0 then .error (.misuse .noPartitions)
  else .ok ((Digest.hash64 (Digest.utf8 assetId)).toNat % rule.split)

end ManualRule

namespace Index

def synchronousSuccessors (i : Index) (k : AssetKey) : List AssetKey :=
  (i.links k).filterMap fun link =>
    if link.dependency.priority = .sync then link.target else none

/-- Assets that synchronous dependencies lead to from the file at `root`. -/
def synchronousSubgraph (i : Index) (projectRoot root : Path) : KeySet AssetKey :=
  let start := i.keys.filter fun k =>
    (i.asset? k).any fun a => (projectRoot.resolveFrom a.filePath).same root
  KeySet.ofList (Walk.explore i.synchronousSuccessors i.keys start)

end Index

namespace Plan

variable (p : Plan) (i : Index) (config : Config)

/-- Whether a rule names an asset that may be moved; roots stay where they are. -/
def isNamedBy (rule : ManualRule) (key : AssetKey) (asset : Asset) : Bool :=
  !p.roots.contains key && asset.isSplittable && rule.matchesType asset.fileType &&
    rule.matchesPath config.projectRoot asset.filePath

def extractableConsumers (consumers : KeySet AssetKey) : KeySet AssetKey :=
  consumers.filter fun k => (p.root? k).any Root.isExtractable

/-- Applies a rule to an asset and its consumers. -/
def moveMatching (rule : ManualRule) (scope : Option (KeySet AssetKey)) (e : Extraction)
    (candidate : AssetKey × KeySet AssetKey) : Except Fault Extraction := do
  let (key, consumers) := candidate
  if key ∈ e.claimed then return e
  let asset ← i.asset key
  let moved := p.extractableConsumers consumers
  if p.isNamedBy config rule key asset && scope.all (fun s => decide (key ∈ s)) &&
      !moved.isEmpty then
    let partition ← rule.partitionOf asset.id
    return e.move ⟨rule.name, asset.fileType, partition, rule.split⟩ key consumers moved
  else return e

def applyRule (e : Extraction) (rule : ManualRule) : Except Fault Extraction :=
  let scope := rule.root.map (i.synchronousSubgraph config.projectRoot)
  e.consumers.entries.foldlM (p.moveMatching i config rule scope) e

/-- Applies all rules in order. -/
def extraction (consumers : KeyMap AssetKey (KeySet AssetKey)) : Except Fault Extraction :=
  config.manualRules.foldlM (p.applyRule i config) { bundles := p.manualBundles, consumers }

def manualDecision (e : ManualKey × ManualBundle) : Decision.Kind :=
  .manualBundleCreated e.1.name e.1.fileType e.1.partition e.2.assets.size

/-- Moves assets into manual bundles. The result also has the consumers that are left and the assets
that were moved. -/
def extractManualBundles (consumers : KeyMap AssetKey (KeySet AssetKey)) :
    Report (Plan × Extraction) := do
  let e ← .ofExcept (p.extraction i config consumers)
  .decide .manual (e.bundles.entries.map manualDecision)
  .event (.counts "ideal graph: extracted manual shared bundles" [
    ("bundles", e.bundles.size), ("claimed", e.claimed.size)])
  return ({ p with manualBundles := e.bundles }, e)

end Plan

end CodeSplit
