import CodeSplit.Fingerprint
import CodeSplit.Json.Record

/-!
How the bundle of a dependency is packaged relative to the bundle that asks for it.
-/
namespace CodeSplit

inductive Behavior where
  | inline
  | isolated
  | inlineIsolated
  deriving DecidableEq, Repr

namespace Behavior

def named : List (String × Behavior) :=
  [("inline", .inline), ("isolated", .isolated), ("inline-isolated", .inlineIsolated)]

def name : Behavior → String
  | .inline => "inline"
  | .isolated => "isolated"
  | .inlineIsolated => "inline-isolated"

def index : Behavior → Nat
  | .inline => 0
  | .isolated => 1
  | .inlineIsolated => 2

/-- The bundle is written into its parent instead of being loaded. -/
def isInline : Behavior → Bool
  | .inline | .inlineIsolated => true
  | .isolated => false

/-- The bundle shares no asset with its parents. -/
def isIsolated : Behavior → Bool
  | .isolated | .inlineIsolated => true
  | .inline => false

def toJson (b : Behavior) : Json := .string b.name

def ofJson? : Json → Option Behavior := Json.choice? named

def fingerprint (b : Behavior) : Digest.Bytes := Fingerprint.tag b.index

end Behavior

end CodeSplit
