import CodeSplit.Config

/-!
Configurations as JSON, for inspection. Numbers are written as text, since they may exceed what
readers of JSON keep exact.
-/
namespace CodeSplit

def Json.decimal (n : Nat) : Json := .string (toString n)

def FileType.views (types : List FileType) : Json := Json.strings (types.map FileType.extension)

def Declaration.view (d : Declaration) : Json := .object [
  ("name", .string d.name),
  ("root", .ofOption (fun p => .string p.text) d.root),
  ("assets", Json.strings d.assets),
  ("types", .ofOption FileType.views d.types),
  ("split", .ofOption Json.decimal d.split)]

def Options.view (o : Options) : Json :=
  let declarations := Json.ofOption fun ds => .array (ds.map Declaration.view)
  .object [
    ("http", .ofOption (fun h => .natural h.code) o.http),
    ("minBundles", .ofOption Json.decimal o.minBundles),
    ("minBundleSize", .ofOption Json.decimal o.minBundleSize),
    ("maxParallelRequests", .ofOption Json.decimal o.maxParallelRequests),
    ("disableSharedBundles", .ofOption .bool o.disableSharedBundles),
    ("manualSharedBundles", declarations o.manualSharedBundles),
    ("unstableManualSharedBundles", declarations o.legacyManualSharedBundles)]

def Settings.Source.view (s : Settings.Source) : Json := .object [
  ("filePath", .string s.filePath.text), ("bytes", .natural s.contents.utf8ByteSize)]

def ManualRule.view (r : ManualRule) : Json := .object [
  ("name", .string r.name),
  ("root", .ofOption (fun p => .string p.text) r.root),
  ("assets", Json.strings r.assets),
  ("types", .ofOption FileType.views r.types),
  ("split", Json.decimal r.split)]

def Config.view (c : Config) : Json := .object [
  ("projectRoot", .string c.projectRoot.text),
  ("minBundles", Json.decimal c.minBundles),
  ("minBundleSize", Json.decimal c.minBundleSize),
  ("maxParallelRequests", Json.decimal c.maxParallelRequests),
  ("disableSharedBundles", .bool c.disableSharedBundles),
  ("sharedThreshold", Json.decimal c.sharedThreshold),
  ("supportWebpackChunkName", .bool c.useChunkNames),
  ("manualSharedBundles", .array (c.manualRules.map ManualRule.view))]

end CodeSplit
