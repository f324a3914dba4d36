import CodeSplit.Report
import CodeSplit.View.Config

/-!
Events and decisions as JSON, for inspection.
-/
namespace CodeSplit

def Event.Value.view : Event.Value → Json
  | .number n => Json.decimal n
  | .text s => .string s
  | .flag b => .bool b

def Event.view (e : Event) : Json := .object [
  ("level", .string e.level.name),
  ("message", .string e.message),
  ("fields", .object (e.fields.map fun (name, value) => (name, value.view)))]

def DissolveReason.name : DissolveReason → String
  | .belowMinBundleSize => "BelowMinBundleSize"
  | .singleConsumer => "SingleConsumer"

def RemovedBundle.view : RemovedBundle → Json
  | .shared id => .object [("shared", .string id)]
  | .reused id => .object [("reused", .string id)]

namespace Decision

def Kind.name : Kind → String
  | .bundleRootCreated .. => "BundleRootCreated"
  | .boundaryCreated .. => "BoundaryCreated"
  | .bundleReused .. => "BundleReused"
  | .availabilityComputed .. => "AvailabilityComputed"
  | .manualBundleCreated .. => "ManualBundleCreated"
  | .sharedBundleCreated .. => "SharedBundleCreated"
  | .sharedBundleDissolved .. => "SharedBundleDissolved"
  | .bundleRemovedFromGroup .. => "BundleRemovedFromGroup"

def Kind.members : Kind → List (String × Json)
  | .bundleRootCreated assetId triggers => [
    ("assetId", .string assetId), ("triggers", .natural triggers.bits)]
  | .boundaryCreated assetId fromAssetId dependencyId priority triggers => [
    ("assetId", .string assetId), ("fromAssetId", .string fromAssetId),
    ("dependencyId", .string dependencyId), ("priority", priority.toJson),
    ("triggers", .natural triggers.bits)]
  | .bundleReused assetId reusedBy => [
    ("assetId", .string assetId), ("reusedByAssetId", .string reusedBy)]
  | .availabilityComputed rootAssetId available => [
    ("rootAssetId", .string rootAssetId), ("availableAssetsLen", .natural available)]
  | .manualBundleCreated name fileType partition assets => [
    ("name", .string name), ("type", .string fileType.extension),
    ("partition", .natural partition), ("assetsLen", .natural assets)]
  | .sharedBundleCreated fileType rootIds assets size => [
    ("type", .string fileType.extension), ("sourceRootIds", Json.strings rootIds),
    ("assetsLen", .natural assets), ("size", .natural size)]
  | .sharedBundleDissolved fileType rootIds reason => [
    ("type", .string fileType.extension), ("sourceRootIds", Json.strings rootIds),
    ("reason", .string reason.name)]
  | .bundleRemovedFromGroup groupRootId removed size => [
    ("groupRootId", .string groupRootId), ("removed", removed.view), ("size", .natural size)]

def view (d : Decision) : Json := .object ([
  ("seq", .natural d.seq), ("phase", .string d.phase.name), ("kind", .string d.kind.name)] ++
  d.kind.members)

end Decision

end CodeSplit
