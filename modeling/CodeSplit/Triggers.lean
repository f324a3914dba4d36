import CodeSplit.Environment
import CodeSplit.FileType

/-!
Root triggers and bundle roots: assets that start a bundle, and what made them start one.
-/
namespace CodeSplit

/-- The number of an asset in an index. -/
abbrev AssetKey := Nat

/-- Why an asset starts a bundle. A root reached in several ways has the triggers of all of them. -/
structure Triggers where
  entry : Bool := false
  lazy : Bool := false
  conditional : Bool := false
  parallel : Bool := false
  isolated : Bool := false
  inline : Bool := false
  environment : Bool := false
  deriving DecidableEq, Repr, Inhabited

namespace Triggers

def none : Triggers := {}

def union (a b : Triggers) : Triggers where
  entry := a.entry || b.entry
  lazy := a.lazy || b.lazy
  conditional := a.conditional || b.conditional
  parallel := a.parallel || b.parallel
  isolated := a.isolated || b.isolated
  inline := a.inline || b.inline
  environment := a.environment || b.environment

def isEmpty (t : Triggers) : Bool := t = none

/-- Whether a root reached this way loads in a group of its own. An inline bundle is written into
its parent, so that an inline trigger keeps the root in the groups of the parent, unless the root is
also loaded in another way. -/
def createsGroup (t : Triggers) : Bool :=
  t.entry || t.lazy || t.conditional || t.environment || (t.isolated && !t.inline)

/-- Whether a root reached this way relies on nothing that a parent has loaded. -/
def startsEmpty (t : Triggers) : Bool := t.entry || t.isolated || t.inline || t.environment

/-- The triggers as a number, one bit each. -/
def bits (t : Triggers) : Nat :=
  t.entry.toNat + 2 * t.lazy.toNat + 4 * t.conditional.toNat + 8 * t.parallel.toNat +
    16 * t.isolated.toNat + 32 * t.inline.toNat + 64 * t.environment.toNat

/-- Bits without a trigger are dropped. -/
def ofBits (n : Nat) : Triggers where
  entry := n.testBit 0
  lazy := n.testBit 1
  conditional := n.testBit 2
  parallel := n.testBit 3
  isolated := n.testBit 4
  inline := n.testBit 5
  environment := n.testBit 6

end Triggers

structure Root where
  assetId : String
  env : Environment := {}
  fileType : FileType := .js
  triggers : Triggers := {}
  /-- Set if a dependency that created the root needs a stable name. -/
  needsStableName : Bool := false
  chunkName : Option String := Option.none
  /-- Whether the root asset may be moved out of its bundle. -/
  isSplittable : Bool := true
  deriving DecidableEq, Repr, Inhabited

namespace Root

def isSingleFile (r : Root) : Bool := r.env.singleFileOutput

/-- Entry-like roots hold every asset they reach and load no automatic shared bundle. -/
def isEntryLike (r : Root) : Bool :=
  r.triggers.entry || r.triggers.isolated || r.triggers.inline || r.needsStableName ||
    !r.isSplittable || r.isSingleFile

def isInline (r : Root) : Bool := r.triggers.inline && !r.triggers.createsGroup

/-- Whether a synchronous import of this root may load its bundle instead of copying it. -/
def isReusable (r : Root) : Bool :=
  !(r.triggers.entry || r.triggers.isolated || r.triggers.inline)

end Root

end CodeSplit
