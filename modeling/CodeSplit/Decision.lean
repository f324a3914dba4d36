import CodeSplit.Dependency
import CodeSplit.Triggers

/-!
The decision log: why the passes of bundling did what they did, numbered.
-/
namespace CodeSplit

inductive Phase where
  | roots
  | reachability
  | availability
  | manual
  | shared
  | limit
  deriving DecidableEq, Repr

def Phase.name : Phase → String
  | .roots => "roots"
  | .reachability => "reachability"
  | .availability => "availability"
  | .manual => "manual"
  | .shared => "shared"
  | .limit => "limit"

inductive DissolveReason where
  | belowMinBundleSize
  | singleConsumer
  deriving DecidableEq, Repr

inductive RemovedBundle where
  | shared (bundleId : String)
  | reused (rootAssetId : String)
  deriving DecidableEq, Repr

inductive Decision.Kind where
  | bundleRootCreated (assetId : String) (triggers : Triggers)
  | boundaryCreated (assetId fromAssetId dependencyId : String) (priority : Priority)
      (triggers : Triggers)
  | bundleReused (assetId reusedByAssetId : String)
  | availabilityComputed (rootAssetId : String) (availableAssets : Nat)
  | manualBundleCreated (name : String) (fileType : FileType) (partition assets : Nat)
  | sharedBundleCreated (fileType : FileType) (sourceRootIds : List String) (assets size : Nat)
  | sharedBundleDissolved (fileType : FileType) (sourceRootIds : List String)
      (reason : DissolveReason)
  | bundleRemovedFromGroup (groupRootId : String) (removed : RemovedBundle) (size : Nat)
  deriving DecidableEq, Repr

structure Decision where
  seq : Nat
  phase : Phase
  kind : Decision.Kind
  deriving DecidableEq, Repr

structure DecisionLog where
  nextSeq : Nat := 0
  decisions : List Decision := []
  deriving DecidableEq, Repr, Inhabited

namespace DecisionLog

def push (log : DecisionLog) (phase : Phase) (kind : Decision.Kind) : DecisionLog where
  nextSeq := log.nextSeq + 1
  decisions := log.decisions ++ [⟨log.nextSeq, phase, kind⟩]

def pushAll (log : DecisionLog) (made : List (Phase × Decision.Kind)) : DecisionLog :=
  made.foldl (fun log (phase, kind) => log.push phase kind) log

/-- Appends the decisions of another log under new numbers. -/
def append (log other : DecisionLog) : DecisionLog :=
  log.pushAll (other.decisions.map fun d => (d.phase, d.kind))

/-- Forgets the decisions and keeps the count. -/
def clear (log : DecisionLog) : DecisionLog := { log with decisions := [] }

end DecisionLog

end CodeSplit
