import CodeSplit.Fingerprint
import CodeSplit.Json.Record
import CodeSplit.Keyed.Order

/-!
File types. Source extensions that compile to the same output share a type.
-/
namespace CodeSplit

inductive FileType where
  | css
  | html
  | js
  | json
  | png
  | svg
  | wasm
  | other (extension : String)
  deriving DecidableEq, Repr

namespace FileType

instance : Inhabited FileType := ⟨.js⟩

def extension : FileType → String
  | .css => "css"
  | .html => "html"
  | .js => "js"
  | .json => "json"
  | .png => "png"
  | .svg => "svg"
  | .wasm => "wasm"
  | .other ext => ext

def ofExtension (ext : String) : FileType :=
  if ext = "js" ∨ ext = "mjs" ∨ ext = "cjs" ∨ ext = "jsx" ∨ ext = "ts" ∨ ext = "tsx" then .js
  else if ext = "css" then .css
  else if ext = "html" ∨ ext = "htm" then .html
  else if ext = "json" then .json
  else if ext = "png" then .png
  else if ext = "svg" then .svg
  else if ext = "wasm" then .wasm
  else .other ext

def isOther : FileType → Bool
  | .other _ => true
  | _ => false

/-- The position among the types, and the extension of the types that share the last one. -/
def rank : FileType → Nat × String
  | .css => (0, "")
  | .html => (1, "")
  | .js => (2, "")
  | .json => (3, "")
  | .png => (4, "")
  | .svg => (5, "")
  | .wasm => (6, "")
  | .other ext => (7, ext)

theorem rank_injective (a b : FileType) (same : rank a = rank b) : a = b := by
  cases a <;> cases b <;> simp_all [rank]

instance : KeyOrder FileType := KeyOrder.along rank rank_injective

def fingerprint (t : FileType) : Digest.Bytes :=
  match t with
  | .other ext => Fingerprint.tag 7 ++ Fingerprint.text ext
  | t => Fingerprint.tag t.rank.1

def toJson (t : FileType) : Json := .string t.extension

def ofJson? (v : Json) : Option FileType := v.text?.map ofExtension

end FileType

end CodeSplit
