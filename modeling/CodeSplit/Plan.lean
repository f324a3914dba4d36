import CodeSplit.Keyed.Map
import CodeSplit.Target
import CodeSplit.Triggers
import CodeSplit.Walk

/-!
The ideal graph of one target, called its plan: which assets go into which bundles, before any
bundle is written.
-/
namespace CodeSplit

/-- A dependency that crosses from what one root loads into another root. -/
structure BundleEdge where
  source : AssetKey
  target : AssetKey
  /-- The asset that declares the dependency. -/
  declaredBy : AssetKey
  dependencyId : String
  triggers : Triggers
  deriving DecidableEq, Repr

structure ManualKey where
  name : String
  fileType : FileType
  partition : Nat := 0
  /-- The number of partitions. -/
  split : Nat := 1
  deriving DecidableEq, Repr

namespace ManualKey

def rank (k : ManualKey) : String × FileType × Nat × Nat :=
  (k.name, k.fileType, k.partition, k.split)

theorem rank_injective (a b : ManualKey) (same : rank a = rank b) : a = b := by
  cases a; cases b; simp_all [rank]

instance : KeyOrder ManualKey := KeyOrder.along rank rank_injective

/-- The name with the partition, if there are several. -/
def qualifiedName (k : ManualKey) : String :=
  if 1 < k.split then k.name ++ "-" ++ toString k.partition else k.name

end ManualKey

structure ManualBundle where
  assets : KeySet AssetKey := ∅
  /-- Roots from which an asset was moved into this bundle. -/
  consumers : KeySet AssetKey := ∅
  deriving DecidableEq, Repr, Inhabited

/-- A bundle made to hold what several roots need. -/
structure SharedBundle where
  fileType : FileType
  assets : KeySet AssetKey
  consumers : KeySet AssetKey
  size : Nat
  /-- A bundle that was dissolved stays in the list. -/
  alive : Bool := true
  deriving DecidableEq, Repr

/-- The assets that a root packages, by the type of the bundle. -/
abbrev Buckets := KeyMap FileType (KeySet AssetKey)

structure Plan where
  target : Target := {}
  roots : KeyMap AssetKey Root := ∅
  edges : List BundleEdge := []
  /-- The first root of a pair loads the bundles of the second instead of copying them. -/
  reused : KeySet (AssetKey × AssetKey) := ∅
  /-- The groups each root loads in, by their roots, reuse apart. -/
  ownGroups : KeyMap AssetKey (KeySet AssetKey) := ∅
  placements : KeyMap AssetKey Buckets := ∅
  manualBundles : KeyMap ManualKey ManualBundle := ∅
  sharedBundles : List SharedBundle := []
  deriving DecidableEq, Repr, Inhabited

namespace Plan

def root? (p : Plan) (k : AssetKey) : Option Root := p.roots.get? k

/-- Adds an asset to a bucket. -/
def place (p : Plan) (root : AssetKey) (bucket : FileType) (asset : AssetKey) : Plan :=
  { p with placements := p.placements.update root ∅ fun buckets =>
      buckets.update bucket ∅ fun assets => assets.insert asset }

/-- The type that a root packages assets of a type as: single-file output has one bundle. -/
def bucketType (p : Plan) (root : AssetKey) (fileType : FileType) : FileType :=
  match p.root? root with
  | some r => if r.isSingleFile then r.fileType else fileType
  | none => fileType

/-- Adds an asset to the bucket that the root has for its type. -/
def pack (p : Plan) (root : AssetKey) (fileType : FileType) (asset : AssetKey) : Plan :=
  p.place root (p.bucketType root fileType) asset

def packAll (p : Plan) (root : AssetKey) (fileType : FileType) (assets : List AssetKey) : Plan :=
  assets.foldl (fun p a => p.pack root fileType a) p

def buckets (p : Plan) (root : AssetKey) : Buckets := (p.placements.get? root).getD ∅

/-- The assets that a root packages as a type. -/
def bucket (p : Plan) (root : AssetKey) (fileType : FileType) : KeySet AssetKey :=
  ((p.buckets root).get? fileType).getD ∅

/-- Whether a root has a bucket of a type that is not empty. -/
def hasBucket (p : Plan) (root : AssetKey) (fileType : FileType) : Bool :=
  !(p.bucket root fileType).isEmpty

theorem buckets_place (p : Plan) (root root' : AssetKey) (fileType : FileType) (asset : AssetKey) :
    (p.place root fileType asset).buckets root' =
      if root = root' then
        (p.buckets root).update fileType ∅ fun assets => assets.insert asset
      else p.buckets root' := by
  by_cases same : root = root'
  · simp [buckets, place, same]
  · simp [buckets, place, same]

/-- Placing adds one asset to one bucket. -/
@[simp] theorem mem_bucket_place {p : Plan} {root root' : AssetKey} {fileType type' : FileType}
    {asset x : AssetKey} :
    x ∈ (p.place root fileType asset).bucket root' type' ↔
      (root = root' ∧ fileType = type' ∧ x = asset) ∨ x ∈ p.bucket root' type' := by
  rw [bucket, buckets_place]
  by_cases same : root = root'
  · subst same
    by_cases sameType : fileType = type'
    · subst sameType
      simp [bucket]
    · simp [bucket, sameType]
  · simp [bucket, same]

@[simp] theorem roots_place (p : Plan) (root : AssetKey) (fileType : FileType) (asset : AssetKey) :
    (p.place root fileType asset).roots = p.roots := rfl

def reusedBy (p : Plan) (root : AssetKey) : List AssetKey :=
  (p.reused.toList.filter fun e => e.1 = root).map Prod.snd

def reusersOf (p : Plan) (root : AssetKey) : List AssetKey :=
  (p.reused.toList.filter fun e => e.2 = root).map Prod.fst

/-- Roots that occur in reuse pairs. -/
def reuseRoots (p : Plan) : List AssetKey :=
  (KeySet.ofList (p.reused.toList.flatMap fun e => [e.1, e.2])).toList

/-- Other roots that follow from `root` in one or more steps. -/
def reuseClosure (p : Plan) (next : AssetKey → List AssetKey) (root : AssetKey) :
    KeySet AssetKey :=
  (KeySet.ofList (Walk.explore next p.reuseRoots [root])).erase root

/-- Roots that `root` loads through reuse, directly or through other reused roots. -/
def reusedClosure (p : Plan) (root : AssetKey) : KeySet AssetKey := p.reuseClosure p.reusedBy root

/-- Roots that load `root` through reuse, directly or through other reused roots. -/
def reusersClosure (p : Plan) (root : AssetKey) : KeySet AssetKey := p.reuseClosure p.reusersOf root

def groupsOf (p : Plan) (root : AssetKey) : KeySet AssetKey := (p.ownGroups.get? root).getD ∅

/-- Roots that belong to a group, reuse apart. -/
def ownMembers (p : Plan) (group : AssetKey) : KeySet AssetKey :=
  KeySet.ofList ((p.ownGroups.entries.filter fun e => decide (group ∈ e.2)).map Prod.fst)

/-- Roots that are in a group only because its members reuse them. -/
def reusedMembers (p : Plan) (group : AssetKey) : KeySet AssetKey :=
  let own := p.ownMembers group
  (KeySet.unions (own.toList.map p.reusedClosure)).diff own

/-- All roots whose bundles a group loads. -/
def members (p : Plan) (group : AssetKey) : KeySet AssetKey :=
  (p.ownMembers group).union (p.reusedMembers group)

/-- Every group that the bundles of a root load in. -/
def allGroups (p : Plan) (root : AssetKey) : KeySet AssetKey :=
  (p.groupsOf root).union (KeySet.unions ((p.reusersClosure root).toList.map p.groupsOf))

/-- The roots that have a group. -/
def groupRoots (p : Plan) : List AssetKey :=
  (p.roots.entries.filter fun e => e.2.triggers.createsGroup).map Prod.fst

def liveSharedBundles (p : Plan) : List SharedBundle := p.sharedBundles.filter SharedBundle.alive

end Plan

end CodeSplit
