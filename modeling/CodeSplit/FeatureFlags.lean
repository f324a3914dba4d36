import CodeSplit.Json.Record
import CodeSplit.Keyed.Map

/-!
Feature flags, resolved once per build.
-/
namespace CodeSplit

inductive FlagValue where
  | text (value : String)
  | bool (value : Bool)
  deriving DecidableEq, Repr

structure FeatureFlags where
  values : KeyMap String FlagValue := ∅
  deriving DecidableEq, Repr, Inhabited

namespace FlagValue

def toJson : FlagValue → Json
  | .text s => .string s
  | .bool b => .bool b

def ofJson? : Json → Option FlagValue
  | .string s => some (.text s)
  | .bool b => some (.bool b)
  | _ => none

end FlagValue

namespace FeatureFlags

def isEnabled (flags : FeatureFlags) (name : String) : Bool :=
  flags.values.get? name = some (.bool true)

def withBool (flags : FeatureFlags) (name : String) (value : Bool) : FeatureFlags :=
  ⟨flags.values.insert name (.bool value)⟩

def toJson (flags : FeatureFlags) : Json :=
  .object (flags.values.entries.map fun (name, value) => (name, value.toJson))

def ofJson? : Json → Option FeatureFlags
  | .object members => do
    let last := KeyMap.ofList members
    let values ← last.entries.mapM fun (name, v) => (FlagValue.ofJson? v).map (Prod.mk name)
    return ⟨KeyMap.ofList values⟩
  | _ => none

end FeatureFlags

end CodeSplit
