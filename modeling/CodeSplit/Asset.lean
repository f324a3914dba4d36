import CodeSplit.Behavior
import CodeSplit.Environment
import CodeSplit.FileType
import CodeSplit.Path

/-!
Assets: files, or parts of files, that bundles are made of.
-/
namespace CodeSplit

namespace Asset

structure Stats where
  /-- Size of the built code in bytes. -/
  size : Nat := 0
  time : Nat := 0
  deriving DecidableEq, Repr, Inhabited

/-- What the id of an asset depends on. -/
structure Identity where
  environmentId : String
  filePath : String
  fileType : FileType
  pipeline : Option String := none
  query : Option String := none
  uniqueKey : Option String := none
  deriving DecidableEq, Repr

namespace Identity

def fingerprint (i : Identity) : Digest.Bytes :=
  Fingerprint.text i.environmentId ++ Fingerprint.text i.filePath ++
    Fingerprint.option Fingerprint.text i.pipeline ++ Fingerprint.option Fingerprint.text i.query ++
    i.fileType.fingerprint ++ Fingerprint.option Fingerprint.text i.uniqueKey

def id (i : Identity) : String := Digest.ofBytes i.fingerprint

end Identity

end Asset

structure Asset where
  id : String := ""
  behavior : Option Behavior := none
  env : Environment := {}
  filePath : Path := ⟨""⟩
  fileType : FileType := .js
  stats : Asset.Stats := {}
  uniqueKey : Option String := none
  /-- Whether the asset matters even if none of its exports is used. -/
  sideEffects : Bool := true
  /-- Whether the asset may be moved out of the bundle that reaches it. -/
  isSplittable : Bool := true
  isSource : Bool := true
  deriving DecidableEq, Repr, Inhabited

namespace Asset

/-- An asset whose type and id follow from its path and environment. -/
def ofPath (path : Path) (env : Environment) (size : Nat) : Asset :=
  let fileType := (path.extension?.map FileType.ofExtension).getD .js
  { id := Identity.id { environmentId := env.id, filePath := path.text, fileType }
    env, filePath := path, fileType, stats := { size } }

def size (a : Asset) : Nat := a.stats.size

/-- The file name without its extension, from which bundles are named. -/
def fileStem (a : Asset) : String := a.filePath.fileStem?.getD a.id

namespace Stats

def toJson (s : Stats) : Json := .object [("size", .natural s.size), ("time", .natural s.time)]

def ofJson? (v : Json) : Option Stats := do
  let [size, time] ← v.fields? ["size", "time"] | none
  return {
    size := ← Json.required? (Json.natural? 32) size
    time := ← Json.required? (Json.natural? 32) time }

end Stats

def toJson (a : Asset) : Json := .object [
  ("id", .string a.id),
  ("bundleBehavior", .ofOption Behavior.toJson a.behavior),
  ("env", a.env.toJson),
  ("filePath", .string a.filePath.text),
  ("type", a.fileType.toJson),
  ("stats", a.stats.toJson),
  ("uniqueKey", .ofOption .string a.uniqueKey),
  ("sideEffects", .bool a.sideEffects),
  ("isBundleSplittable", .bool a.isSplittable),
  ("isSource", .bool a.isSource)]

def fieldNames : List String :=
  ["id", "bundleBehavior", "env", "filePath", "type", "stats", "uniqueKey", "sideEffects",
    "isBundleSplittable", "isSource"]

/-- Fields that are left out have the values of an empty asset. -/
def ofJson? (v : Json) : Option Asset := do
  let [id, behavior, env, filePath, fileType, stats, uniqueKey, sideEffects, isSplittable,
    isSource] ← v.leadingFields? fieldNames | none
  return {
    id := ← Json.defaulted? Json.text? "" id
    behavior := ← Json.optional? Behavior.ofJson? behavior
    env := ← Json.defaulted? Environment.ofJson? {} env
    filePath := ⟨← Json.defaulted? Json.text? "" filePath⟩
    fileType := ← Json.defaulted? FileType.ofJson? .js fileType
    stats := ← Json.defaulted? Stats.ofJson? {} stats
    uniqueKey := ← Json.optional? Json.text? uniqueKey
    sideEffects := ← Json.defaulted? Json.bool? true sideEffects
    isSplittable := ← Json.defaulted? Json.bool? true isSplittable
    isSource := ← Json.defaulted? Json.bool? true isSource }

end Asset

end CodeSplit
