import CodeSplit.FileType
import CodeSplit.Path

/-!
Bundler options as they are written: every option may be left out, and a set of options can be laid
over another.
-/
namespace CodeSplit

inductive HttpVersion where
  | http1
  | http2
  deriving DecidableEq, Repr

namespace HttpVersion

instance : Inhabited HttpVersion := ⟨.http2⟩

def code : HttpVersion → Nat
  | .http1 => 1
  | .http2 => 2

def ofJson? (v : Json) : Option HttpVersion :=
  match v.natural? 8 with
  | some 1 => some .http1
  | some 2 => some .http2
  | _ => none

def minBundleSize : HttpVersion → Nat
  | .http1 => 30000
  | .http2 => 20000

def maxParallelRequests : HttpVersion → Nat
  | .http1 => 6
  | .http2 => 25

end HttpVersion

/-- A bundle declared by the user. -/
structure Declaration where
  name : String
  /-- Only what this file loads synchronously is matched. -/
  root : Option Path := none
  /-- Globs relative to the project root. -/
  assets : List String
  types : Option (List FileType) := none
  /-- The number of partitions that matching assets are spread over. -/
  split : Option Nat := none
  deriving DecidableEq, Repr

namespace Declaration

def fieldNames : List String := ["name", "root", "assets", "types", "split"]

def ofJson? (v : Json) : Option Declaration := do
  let [name, root, assets, types, split] ← v.fields? fieldNames | none
  return {
    name := ← Json.required? Json.text? name
    root := (← Json.optional? Json.text? root).map Path.mk
    assets := ← Json.required? (Json.list? Json.text?) assets
    types := ← Json.optional? (Json.list? FileType.ofJson?) types
    split := ← Json.optional? (Json.natural? 64) split }

end Declaration

structure Options where
  http : Option HttpVersion := none
  minBundles : Option Nat := none
  minBundleSize : Option Nat := none
  maxParallelRequests : Option Nat := none
  disableSharedBundles : Option Bool := none
  manualSharedBundles : Option (List Declaration) := none
  legacyManualSharedBundles : Option (List Declaration) := none
  deriving DecidableEq, Repr, Inhabited

namespace Options

def fieldNames : List String :=
  ["http", "minBundles", "minBundleSize", "maxParallelRequests", "disableSharedBundles",
    "manualSharedBundles", "unstable_manualSharedBundles"]

def ofFields? (fields : List (Option Json)) : Option Options := do
  let [http, minBundles, minBundleSize, maxRequests, disabled, manual, legacy] := fields | none
  return {
    http := ← Json.optional? HttpVersion.ofJson? http
    minBundles := ← Json.optional? (Json.natural? 64) minBundles
    minBundleSize := ← Json.optional? (Json.natural? 64) minBundleSize
    maxParallelRequests := ← Json.optional? (Json.natural? 64) maxRequests
    disableSharedBundles := ← Json.optional? Json.bool? disabled
    manualSharedBundles := ← Json.optional? (Json.list? Declaration.ofJson?) manual
    legacyManualSharedBundles := ← Json.optional? (Json.list? Declaration.ofJson?) legacy }

def ofJson? (v : Json) : Option Options := do ofFields? (← v.fields? fieldNames)

/-- Each option that `overlay` sets, and the others from `base`. -/
def merge (base overlay : Options) : Options where
  http := overlay.http <|> base.http
  minBundles := overlay.minBundles <|> base.minBundles
  minBundleSize := overlay.minBundleSize <|> base.minBundleSize
  maxParallelRequests := overlay.maxParallelRequests <|> base.maxParallelRequests
  disableSharedBundles := overlay.disableSharedBundles <|> base.disableSharedBundles
  manualSharedBundles := overlay.manualSharedBundles <|> base.manualSharedBundles
  legacyManualSharedBundles :=
    overlay.legacyManualSharedBundles <|> base.legacyManualSharedBundles

end Options

end CodeSplit
