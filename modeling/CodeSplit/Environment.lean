import CodeSplit.Fingerprint
import CodeSplit.Json.Record

/-!
The environment that built code runs in. Assets share a bundle only if their environments have the
same id.
-/
namespace CodeSplit

namespace Environment

inductive Context where
  | browser
  | electronMain
  | electronRenderer
  | node
  | serviceWorker
  | webWorker
  | worklet
  deriving DecidableEq, Repr, Inhabited

namespace Context

def named : List (String × Context) := [
  ("browser", .browser), ("electron-main", .electronMain),
  ("electron-renderer", .electronRenderer), ("node", .node),
  ("service-worker", .serviceWorker), ("web-worker", .webWorker), ("worklet", .worklet)]

def name : Context → String
  | .browser => "browser"
  | .electronMain => "electron-main"
  | .electronRenderer => "electron-renderer"
  | .node => "node"
  | .serviceWorker => "service-worker"
  | .webWorker => "web-worker"
  | .worklet => "worklet"

def index : Context → Nat
  | .browser => 0
  | .electronMain => 1
  | .electronRenderer => 2
  | .node => 3
  | .serviceWorker => 4
  | .webWorker => 5
  | .worklet => 6

def isNode : Context → Bool
  | .node | .electronMain | .electronRenderer => true
  | _ => false

def isBrowser : Context → Bool
  | .browser | .webWorker | .serviceWorker | .worklet | .electronRenderer => true
  | _ => false

def isWorker : Context → Bool
  | .webWorker | .serviceWorker => true
  | _ => false

def toJson (c : Context) : Json := .string c.name

def ofJson? : Json → Option Context := Json.choice? named

end Context

inductive OutputFormat where
  | global
  | commonjs
  | esmodule
  deriving DecidableEq, Repr, Inhabited

namespace OutputFormat

def named : List (String × OutputFormat) :=
  [("global", .global), ("commonjs", .commonjs), ("esmodule", .esmodule)]

def name : OutputFormat → String
  | .global => "global"
  | .commonjs => "commonjs"
  | .esmodule => "esmodule"

def index : OutputFormat → Nat
  | .global => 0
  | .commonjs => 1
  | .esmodule => 2

def toJson (f : OutputFormat) : Json := .string f.name

def ofJson? : Json → Option OutputFormat := Json.choice? named

end OutputFormat

/-- Version ranges of the engines that the code has to run in. -/
structure Engines where
  browsers : Option String := none
  electron : Option String := none
  node : Option String := none
  deriving DecidableEq, Repr, Inhabited

namespace Engines

def toJson (e : Engines) : Json := .object [
  ("browsers", .ofOption .string e.browsers),
  ("electron", .ofOption .string e.electron),
  ("node", .ofOption .string e.node)]

def ofJson? (v : Json) : Option Engines := do
  let [browsers, electron, node] ← v.fields? ["browsers", "electron", "node"] | none
  return {
    browsers := ← Json.optional? Json.text? browsers
    electron := ← Json.optional? Json.text? electron
    node := ← Json.optional? Json.text? node }

def fingerprint (e : Engines) : Digest.Bytes :=
  Fingerprint.option Fingerprint.text e.browsers ++
    Fingerprint.option Fingerprint.text e.electron ++
    Fingerprint.option Fingerprint.text e.node

end Engines

end Environment

open Environment in
structure Environment where
  context : Context := .browser
  engines : Engines := {}
  isLibrary : Bool := false
  outputFormat : OutputFormat := .global
  shouldScopeHoist : Bool := false
  shouldOptimize : Bool := false
  /-- Everything that an entry of this environment reaches goes into one bundle. -/
  singleFileOutput : Bool := false
  deriving DecidableEq, Repr, Inhabited

namespace Environment

def toJson (e : Environment) : Json := .object [
  ("context", e.context.toJson),
  ("engines", e.engines.toJson),
  ("isLibrary", .bool e.isLibrary),
  ("outputFormat", e.outputFormat.toJson),
  ("shouldScopeHoist", .bool e.shouldScopeHoist),
  ("shouldOptimize", .bool e.shouldOptimize),
  ("unstableSingleFileOutput", .bool e.singleFileOutput)]

def fieldNames : List String :=
  ["context", "engines", "isLibrary", "outputFormat", "shouldScopeHoist", "shouldOptimize",
    "unstableSingleFileOutput"]

def ofJson? (v : Json) : Option Environment := do
  let [context, engines, isLibrary, outputFormat, scopeHoist, optimize, singleFile] ←
    v.fields? fieldNames | none
  return {
    context := ← Json.required? Context.ofJson? context
    engines := ← Json.required? Engines.ofJson? engines
    isLibrary := ← Json.required? Json.bool? isLibrary
    outputFormat := ← Json.required? OutputFormat.ofJson? outputFormat
    shouldScopeHoist := ← Json.required? Json.bool? scopeHoist
    shouldOptimize := ← Json.required? Json.bool? optimize
    singleFileOutput := ← Json.required? Json.bool? singleFile }

def fingerprint (e : Environment) : Digest.Bytes :=
  Fingerprint.tag e.context.index ++ e.engines.fingerprint ++ Fingerprint.flag e.isLibrary ++
    Fingerprint.tag e.outputFormat.index ++ Fingerprint.flag e.shouldScopeHoist ++
    Fingerprint.flag e.shouldOptimize ++ Fingerprint.flag e.singleFileOutput

def id (e : Environment) : String := Digest.ofBytes e.fingerprint

end Environment

end CodeSplit
