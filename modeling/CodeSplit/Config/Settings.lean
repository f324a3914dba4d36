import CodeSplit.BuildMode
import CodeSplit.Config.Options
import CodeSplit.Json.Reader

/-!
The settings of a project: options, overlays for the build modes, and where they were written. They
stand under one key of the package manifest.
-/
namespace CodeSplit

structure Settings.Source where
  filePath : Path
  contents : String
  deriving DecidableEq, Repr

structure Settings where
  options : Options := {}
  production : Option Options := none
  development : Option Options := none
  source : Option Settings.Source := none
  deriving DecidableEq, Repr, Inhabited

inductive Settings.Error where
  | unreadable (path : Path)
  | invalid (path : Path)
  deriving DecidableEq, Repr

namespace Settings

/-- The key of the package manifest. -/
def key : String := "@atlaspack/bundler-default"

def Error.message : Error → String
  | .unreadable path => "failed to parse " ++ path.text
  | .invalid path => "invalid \"" ++ key ++ "\" in " ++ path.text

/-- Options and overlays are members of the same object. -/
def ofJson? (v : Json) : Option Settings :=
  match v with
  | .object members => do
    let options ← Options.ofFields? (Options.fieldNames.map (Json.lastMember? · members))
    return {
      options
      production := ← Json.optional? Options.ofJson? (Json.lastMember? "production" members)
      development := ← Json.optional? Options.ofJson? (Json.lastMember? "development" members) }
  | _ => none

/-- Reads the settings in a package manifest; without the key all options are left out. -/
def ofManifest (path : Path) (contents : String) : Except Error Settings :=
  match Json.parse? contents with
  | none => .error (.unreadable path)
  | some manifest =>
    let source := some ⟨path, contents⟩
    match manifest.member? key with
    | none => .ok { source }
    | some v =>
      match ofJson? v with
      | none => .error (.invalid path)
      | some settings => .ok { settings with source }

def overlay (s : Settings) : BuildMode → Option Options
  | .production => s.production
  | .development => s.development
  | .other _ => none

/-- The options in force in a mode. -/
def optionsIn (s : Settings) (mode : BuildMode) : Options :=
  match s.overlay mode with
  | some overlay => s.options.merge overlay
  | none => s.options

end Settings

end CodeSplit
