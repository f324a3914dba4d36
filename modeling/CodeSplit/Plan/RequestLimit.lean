import CodeSplit.BundleName
import CodeSplit.Plan.Groups
import CodeSplit.Plan.SharedBundles

/-!
The limiter of parallel requests. While a group loads more bundles than the limit allows, the
smallest shared or reused bundle of the group is copied into the roots of the group that load it.
Only bundles whose assets have a bundle of their type to go to can be removed; manual bundles count,
and stay. Limiting can go on without end, which is told from a budget that every run that ends keeps
to.
-/
namespace CodeSplit

/-- A bundle that a group can do without. -/
inductive Removal.Subject where
  /-- The place of a shared bundle in the list. -/
  | shared (place : Nat)
  | reused (root : AssetKey)
  deriving DecidableEq, Repr

structure Removal where
  subject : Removal.Subject
  size : Nat
  bundleId : String
  /-- Members of the group that take over the assets. -/
  consumers : KeySet AssetKey
  deriving DecidableEq, Repr

/-- Smaller bundles go first, then lower ids. -/
def Removal.before (a b : Removal) : Bool :=
  KeyOrder.before (a.size, a.bundleId) (b.size, b.bundleId)

/-- The removal that comes first, the earlier one of equals. -/
def Removal.first? : List Removal → Option Removal
  | [] => none
  | r :: rest => some (rest.foldl (fun first s => if s.before first then s else first) r)

namespace Plan

variable (p : Plan) (i : Index)

def bucketCount (root : AssetKey) : Nat :=
  ((p.buckets root).values.filter fun assets => !assets.isEmpty).length

theorem bucketCount_eq_length (root : AssetKey) :
    p.bucketCount root = ((p.buckets root).entries.filter fun e => !e.2.isEmpty).length := by
  rw [bucketCount, KeyMap.values, List.filter_map, List.length_map]
  rfl

/-- The number of bundles that a group requests. -/
def requestCount (group : AssetKey) : Nat :=
  let members := p.members group
  let requested := members.toList.filter fun m => (p.root? m).any fun r => !r.isInline
  total (requested.map p.bucketCount) +
    (p.liveSharedBundles.filter fun b => b.consumers.meets members).length +
    (p.manualBundles.values.filter fun b => b.consumers.meets members).length

/-- Whether a root has a bucket that assets of a type can be added to. -/
def takes (root : AssetKey) (fileType : FileType) : Bool :=
  p.hasBucket root (p.bucketType root fileType)

/-- The removal of a shared bundle from the members that load it, if it can be removed. -/
def sharedRemoval? (members : KeySet AssetKey) (place : Nat) (b : SharedBundle) :
    Except Fault (Option Removal) := do
  let consumers := b.consumers.inter members
  if b.alive && !consumers.isEmpty && consumers.toList.all fun c => p.takes c b.fileType then
    let assetIds ← i.idsOf b.assets
    return some {
      subject := .shared place
      size := b.size
      bundleId := BundleName.bundleId assetIds b.fileType p.target.distDir
      consumers }
  else return none

/-- The removal of a reused root from the members that reuse it, if it can be removed. -/
def reusedRemoval? (own : KeySet AssetKey) (reused : AssetKey) : Except Fault (Option Removal) := do
  match p.root? reused, p.placements.get? reused with
  | some root, some buckets =>
    let reusers := KeySet.ofList ((p.reusersOf reused).filter fun r => decide (r ∈ own))
    if !root.isInline && !reusers.isEmpty &&
        reusers.toList.all fun r => buckets.keys.all fun fileType => p.takes r fileType then
      let sizes ← buckets.values.mapM i.totalSize
      let mainIds ← i.idsOf ((buckets.get? root.fileType).getD ∅)
      return some {
        subject := .reused reused
        size := total sizes
        bundleId := BundleName.bundleId mainIds root.fileType p.target.distDir
        consumers := reusers }
    else return none
  | _, _ => return none

/-- Everything that can be removed from a group, shared bundles first. -/
def removals (group : AssetKey) : Except Fault (List Removal) := do
  let members := p.members group
  let own := p.ownMembers group
  let shared ← p.sharedBundles.zipIdx.mapM fun (b, place) => p.sharedRemoval? i members place b
  let reused ← (p.reusedMembers group).toList.mapM (p.reusedRemoval? i own)
  return (shared ++ reused).filterMap id

def nextRemoval? (group : AssetKey) : Except Fault (Option Removal) :=
  Removal.first? <$> p.removals i group

/-- Copies a shared bundle into some of its consumers. -/
def removeShared (place : Nat) (consumers : KeySet AssetKey) : Plan :=
  match p.sharedBundles[place]? with
  | none => p
  | some b =>
    let packed := consumers.toList.foldl
      (fun p c => p.packAll c b.fileType b.assets.toList) p
    { packed with sharedBundles :=
        p.sharedBundles.set place { b with consumers := b.consumers.diff consumers } }

def addEdge (e : BundleEdge) : Plan :=
  if e ∈ p.edges then p else { p with edges := p.edges ++ [e] }

/-- Puts the code of `reused` into the bundles of `reuser`, which from then on loads whatever that
code loads. Roots that load no shared bundles take the assets of those. -/
def copyReused (reused : AssetKey) (buckets : Buckets) (nested : List AssetKey)
    (outgoing : List BundleEdge) (reuser : AssetKey) : Plan :=
  let packed := buckets.entries.foldl
    (fun p (fileType, assets) => p.packAll reuser fileType assets.toList) p
  let linked := (outgoing.filter fun e => e.target ≠ reuser).foldl
    (fun p e => p.addEdge { e with source := reuser }) packed
  let pairs := ((nested.filter fun n => n ≠ reuser).map fun n => (reuser, n)).foldl
    KeySet.insert (p.reused.erase (reuser, reused))
  let manual := p.manualBundles.map fun _ b =>
    if reused ∈ b.consumers then { b with consumers := b.consumers.insert reuser } else b
  let rewired := { linked with reused := pairs, manualBundles := manual }
  if (p.root? reuser).any Root.isEntryLike then
    (p.liveSharedBundles.filter fun b => reused ∈ b.consumers).foldl
      (fun p b => p.packAll reuser b.fileType b.assets.toList) rewired
  else
    let joined := p.sharedBundles.map fun b =>
      if b.alive ∧ reused ∈ b.consumers then { b with consumers := b.consumers.insert reuser }
      else b
    { rewired with sharedBundles := joined }

/-- Copies a reused root into some of its reusers. -/
def removeReused (reused : AssetKey) (reusers : KeySet AssetKey) : Plan :=
  let buckets := p.buckets reused
  let nested := p.reusedBy reused
  let outgoing := p.edges.filter fun e => e.source = reused
  reusers.toList.foldl (fun p r => p.copyReused reused buckets nested outgoing r) p

/-- Carries out a removal and notes it. -/
def applyRemoval (group : AssetKey) (r : Removal) : Report Plan := do
  let (next, removed) ← match r.subject with
    | .shared place => pure (p.removeShared place r.consumers, RemovedBundle.shared r.bundleId)
    | .reused root => do
      let next ← (p.removeReused root r.consumers).assignGroups
      let rootId ← .ofExcept (i.idOf root)
      pure (next, RemovedBundle.reused rootId)
  let groupId ← .ofExcept (i.idOf group)
  .event { level := .trace
           message := "ideal graph: removed bundle from group"
           fields := [("group", .text groupId), ("bundle_id", .text r.bundleId),
             ("size", .number r.size)] }
  .decide .limit [.bundleRemovedFromGroup groupId removed r.size]
  return next

/-- A live shared bundle that fewer than two roots load. -/
def isSpent (b : SharedBundle) : Bool := b.alive && decide (b.consumers.size < 2)

/-- Copies a spent bundle into what is left of its consumers. -/
def dissolve (b : SharedBundle) : Report Plan := do
  let rootIds ← .ofExcept (i.idsOf b.consumers)
  .decide .limit [.sharedBundleDissolved b.fileType rootIds .singleConsumer]
  return b.consumers.toList.foldl (fun p c => p.packAll c b.fileType b.assets.toList) p

/-- Dissolves all spent bundles. -/
def prune : Report Plan :=
  let retired := p.sharedBundles.map fun b => if isSpent b then { b with alive := false } else b
  (p.sharedBundles.filter isSpent).foldlM (fun p b => p.dissolve i b)
    { p with sharedBundles := retired }

/-- The roots that can come to load a shared bundle. -/
def possibleConsumers : List AssetKey :=
  (KeySet.unions (p.sharedBundles.map SharedBundle.consumers)).toList ++ p.reuseRoots

/-- The roots that can come to have buckets. -/
def possibleHolders : List AssetKey := p.placements.keys ++ p.possibleConsumers

/-- The types that buckets can come to have. -/
def possibleTypes : List FileType :=
  p.roots.values.map Root.fileType ++ p.placements.values.flatMap KeyMap.keys ++
    p.sharedBundles.map SharedBundle.fileType

/-- The assets that buckets can come to have. -/
def possibleContents : List AssetKey :=
  p.placements.values.flatMap (fun buckets => buckets.values.flatMap KeySet.toList) ++
    p.sharedBundles.flatMap fun b => b.assets.toList

/-- How much there can be in a plan of all that a removal may add and none takes away: buckets and
what is in them, edges, consumers of manual bundles, and dissolved bundles. -/
def gainBudget : Nat :=
  let roots := p.reuseRoots.length
  p.possibleHolders.length * (p.possibleTypes.length * (p.possibleContents.length + 1) + 1) +
    p.edges.length * (roots + 1) +
    total (p.manualBundles.values.map fun b => b.consumers.size + roots) + p.sharedBundles.length

/-- As many steps as limiting can take without coming back to where it was before, from where it
would go on for ever. Apart from what is only added, plans differ in reuse pairs, in the consumers
of shared bundles and in whether groups were assigned anew; and a round may be anywhere in the
groups, with or without a removal. -/
def stepBudget : Nat :=
  let roots := p.reuseRoots.length
  let ties := roots * roots + p.sharedBundles.length * p.possibleConsumers.length
  (p.groupRoots.length + 1) * 4 * (p.gainBudget + 1) * Nat.pow 2 ties

/-- Removes bundles from the pending groups, and from all groups again as long as anything was
removed, since a removal can add bundles to another group. Gives the number of removals too. -/
def limitFrom (limit : Nat) (groups : List AssetKey) :
    (fuel : Nat) → (pending : List AssetKey) → (changed : Bool) → (removed : Nat) → Plan →
    Report (Plan × Nat)
  | 0, _, _, _, _ => .ofExcept (.error (.misuse .endlessRemovals))
  | fuel + 1, [], changed, removed, p =>
    if changed then limitFrom limit groups fuel groups false removed p else pure (p, removed)
  | fuel + 1, group :: pending, changed, removed, p =>
    if p.requestCount group ≤ limit then limitFrom limit groups fuel pending changed removed p
    else do
      match ← Report.ofExcept (p.nextRemoval? i group) with
      | none =>
        let groupId ← .ofExcept (i.idOf group)
        .event { level := .debug
                 message := "ideal graph: group exceeds max parallel requests with nothing left " ++
                   "to remove"
                 fields := [("group", .text groupId)] }
        limitFrom limit groups fuel pending changed removed p
      | some removal =>
        let next ← p.applyRemoval i group removal
        let pruned ← next.prune i
        limitFrom limit groups fuel (group :: pending) true (removed + 1) pruned

/-- Brings every group within the limit where that is possible. -/
def limitRequests (config : Config) : Report Plan := do
  if config.disableSharedBundles then return p
  let groups := p.groupRoots
  let (limited, removed) ←
    limitFrom i config.maxParallelRequests groups p.stepBudget groups false 0 p
  .event (.counts "ideal graph: limited parallel requests" [
    ("groups", groups.length),
    ("removed", removed),
    ("max_parallel_requests", config.maxParallelRequests)])
  return limited

end Plan

end CodeSplit
