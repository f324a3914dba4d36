/-!
Why an operation gives no result. A failure is a property of the graph that is bundled and has a
message; a misuse is a request that its caller should not have made.
-/
namespace CodeSplit

inductive Misuse where
  | missingSpecifier
  | missingEnvironment
  | undeclaredAsset (path : String)
  | noSuchNode (node : Nat)
  | noSuchAsset (key : Nat)
  | cutCharacter (text : String)
  | noPartitions
  /-- Removals of reused bundles that give back one another without end. -/
  | endlessRemovals
  deriving DecidableEq, Repr

inductive Failure where
  | tooManyAssets
  | unnumberedAsset
  | missingAsset (key : Nat)
  | noEntryDependencies
  | unresolvedEntry (specifier : String)
  | noEntries
  | rootWithoutGroup
  | parentOutOfOrder
  | cyclicCondensation
  | idOfAnotherNode (id : String)
  | differentContents (id : String)
  | tooFewConsumers (assets consumers : Nat)
  | emptyBundle
  | missingGroupRoot
  | entryBundles (assetId : String) (count : Nat)
  | inTarget (name : String) (cause : Failure)
  deriving DecidableEq, Repr

inductive Fault where
  | failure (cause : Failure)
  | misuse (cause : Misuse)
  deriving DecidableEq, Repr

/-- The message of a misuse that has one. -/
def Misuse.message? : Misuse → Option String
  | .missingSpecifier => some "specifier is required"
  | .missingEnvironment => some "env is required"
  | .undeclaredAsset path => some ("no asset declared for " ++ path)
  | _ => none

def Failure.message : Failure → String
  | .tooManyAssets => "too many assets to key"
  | .unnumberedAsset => "asset missing from interner"
  | .missingAsset key => "asset " ++ toString key ++ " was not indexed"
  | .noEntryDependencies => "asset graph had no entry dependencies"
  | .unresolvedEntry specifier =>
    "entry dependency " ++ specifier ++ " did not resolve to an asset"
  | .noEntries => "target has no entries"
  | .rootWithoutGroup => "group-creating edge into a root without a group"
  | .parentOutOfOrder => "parent group visited out of order"
  | .cyclicCondensation => "SCC condensation graph unexpectedly cyclic"
  | .idOfAnotherNode id => "bundle id " ++ id ++ " is already used by another node"
  | .differentContents id => "bundles with id " ++ id ++ " have different contents"
  | .tooFewConsumers assets consumers =>
    "shared bundle of " ++ toString assets ++ " assets has " ++ toString consumers ++ " consumers"
  | .emptyBundle => "bundle has neither consumers nor assets"
  | .missingGroupRoot => "group root missing from roots"
  | .entryBundles assetId count =>
    "bundle group for " ++ assetId ++ " has " ++ toString count ++ " bundles containing its entry"
  | .inTarget name cause => "building ideal graph for target " ++ name ++ ": " ++ cause.message

/-- Names the target in which a failure arose; a misuse stays as it is. -/
def Fault.inTarget (name : String) : Fault → Fault
  | .failure cause => .failure (.inTarget name cause)
  | .misuse cause => .misuse cause

end CodeSplit
