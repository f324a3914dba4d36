import CodeSplit.Environment
import CodeSplit.Path

/-!
Targets: how and where source code is compiled.
-/
namespace CodeSplit

structure Target where
  distDir : Path := ⟨"dist"⟩
  distEntry : Option Path := none
  env : Environment := {}
  name : String := "default"
  publicUrl : String := "/"
  deriving DecidableEq, Repr, Inhabited

namespace Target

def toJson (t : Target) : Json := .object [
  ("distDir", .string t.distDir.text),
  ("distEntry", .ofOption (fun p => .string p.text) t.distEntry),
  ("env", t.env.toJson),
  ("name", .string t.name),
  ("publicUrl", .string t.publicUrl)]

def fieldNames : List String := ["distDir", "distEntry", "env", "name", "publicUrl"]

def pathOfJson? (v : Json) : Option Path := v.text?.map Path.mk

def ofJson? (v : Json) : Option Target := do
  let [distDir, distEntry, env, name, publicUrl] ← v.fields? fieldNames | none
  return {
    distDir := ← Json.required? pathOfJson? distDir
    distEntry := ← Json.optional? pathOfJson? distEntry
    env := ← Json.required? Environment.ofJson? env
    name := ← Json.required? Json.text? name
    publicUrl := ← Json.required? Json.text? publicUrl }

def fingerprint (t : Target) : Digest.Bytes :=
  t.distDir.fingerprint ++ Fingerprint.option Path.fingerprint t.distEntry ++ t.env.fingerprint ++
    Fingerprint.text t.name ++ Fingerprint.text t.publicUrl

/-- Whether two targets agree, paths being compared by their components. -/
def same (s t : Target) : Bool :=
  s.distDir.same t.distDir &&
    (match s.distEntry, t.distEntry with
      | none, none => true
      | some p, some q => p.same q
      | _, _ => false) &&
    s.env = t.env && s.name = t.name && s.publicUrl = t.publicUrl

end Target

end CodeSplit
