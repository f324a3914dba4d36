import CodeSplit.Behavior
import CodeSplit.Fault
import CodeSplit.Target

/-!
Dependencies: what an asset asks for, when it has to be loaded, and how. The id of a dependency is a
digest of what tells it apart from its siblings.
-/
namespace CodeSplit

inductive Priority where
  | sync
  | parallel
  | lazy
  | conditional
  deriving DecidableEq, Repr, Inhabited

namespace Priority

def code : Priority → Nat
  | .sync => 0
  | .parallel => 1
  | .lazy => 2
  | .conditional => 3

def ofCode? : Nat → Option Priority
  | 0 => some .sync
  | 1 => some .parallel
  | 2 => some .lazy
  | 3 => some .conditional
  | _ => none

def toJson (p : Priority) : Json := .natural p.code

def ofJson? (v : Json) : Option Priority := (v.natural? 32).bind ofCode?

/-- Four bytes, the least significant first. -/
def fingerprint (p : Priority) : Digest.Bytes := [UInt8.ofNat p.code, 0, 0, 0]

end Priority

inductive SpecifierType where
  | esm
  | commonJs
  | url
  | custom
  deriving DecidableEq, Repr, Inhabited

namespace SpecifierType

def code : SpecifierType → Nat
  | .esm => 0
  | .commonJs => 1
  | .url => 2
  | .custom => 3

def ofCode? : Nat → Option SpecifierType
  | 0 => some .esm
  | 1 => some .commonJs
  | 2 => some .url
  | 3 => some .custom
  | _ => none

def toJson (t : SpecifierType) : Json := .natural t.code

def ofJson? (v : Json) : Option SpecifierType := (v.natural? 8).bind ofCode?

def fingerprint (t : SpecifierType) : Digest.Bytes := [UInt8.ofNat t.code]

end SpecifierType

structure Dependency where
  id : String
  specifier : String
  specifierType : SpecifierType := .esm
  priority : Priority := .sync
  behavior : Option Behavior := none
  env : Environment := {}
  sourceAssetId : Option String := none
  sourcePath : Option Path := none
  /-- Entries name their target. -/
  target : Option Target := none
  isEntry : Bool := false
  isOptional : Bool := false
  /-- The bundle made for this dependency keeps its name when its contents change. -/
  needsStableName : Bool := false
  chunkName : Option String := none
  deriving DecidableEq, Repr, Inhabited

namespace Dependency

def isIsolated (d : Dependency) : Bool := d.behavior.any Behavior.isIsolated

def isInline (d : Dependency) : Bool := d.behavior.any Behavior.isInline

/-- What the id of a dependency depends on. -/
structure Identity where
  sourceAssetId : Option String
  specifier : String
  environmentId : String
  target : Option Target
  specifierType : SpecifierType
  behavior : Option Behavior
  priority : Priority
  deriving DecidableEq, Repr

namespace Identity

def fingerprint (i : Identity) : Digest.Bytes :=
  Fingerprint.option Fingerprint.text i.sourceAssetId ++ Fingerprint.text i.specifier ++
    Fingerprint.text i.environmentId ++ Fingerprint.option Target.fingerprint i.target ++
    i.specifierType.fingerprint ++ Fingerprint.option Behavior.fingerprint i.behavior ++
    i.priority.fingerprint

def id (i : Identity) : String := Digest.ofBytes i.fingerprint

end Identity

/-- A dependency in the making: what has been said of it so far. -/
structure Draft where
  specifier : Option String := none
  specifierType : Option SpecifierType := none
  priority : Option Priority := none
  behavior : Option Behavior := none
  env : Option Environment := none
  sourceAssetId : Option String := none
  sourcePath : Option Path := none
  target : Option Target := none
  isEntry : Option Bool := none
  isOptional : Option Bool := none
  needsStableName : Option Bool := none
  chunkName : Option String := none
  deriving Repr, Inhabited

namespace Draft

/-- Takes from `changes` everything that they say. -/
def override (d changes : Draft) : Draft where
  specifier := changes.specifier <|> d.specifier
  specifierType := changes.specifierType <|> d.specifierType
  priority := changes.priority <|> d.priority
  behavior := changes.behavior <|> d.behavior
  env := changes.env <|> d.env
  sourceAssetId := changes.sourceAssetId <|> d.sourceAssetId
  sourcePath := changes.sourcePath <|> d.sourcePath
  target := changes.target <|> d.target
  isEntry := changes.isEntry <|> d.isEntry
  isOptional := changes.isOptional <|> d.isOptional
  needsStableName := changes.needsStableName <|> d.needsStableName
  chunkName := changes.chunkName <|> d.chunkName

/-- The dependency a draft describes, once its specifier and environment are known. -/
def complete (d : Draft) (specifier : String) (env : Environment) : Dependency :=
  let specifierType := d.specifierType.getD .esm
  let priority := d.priority.getD .sync
  { id := Identity.id {
      sourceAssetId := d.sourceAssetId, specifier, environmentId := env.id, target := d.target
      specifierType, behavior := d.behavior, priority }
    specifier, specifierType, priority, env
    behavior := d.behavior
    sourceAssetId := d.sourceAssetId
    sourcePath := d.sourcePath
    target := d.target
    isEntry := d.isEntry.getD false
    isOptional := d.isOptional.getD false
    needsStableName := d.needsStableName.getD false
    chunkName := d.chunkName }

def build (d : Draft) : Except Fault Dependency :=
  match d.specifier, d.env with
  | some specifier, some env => .ok (d.complete specifier env)
  | none, _ => .error (.misuse .missingSpecifier)
  | some _, none => .error (.misuse .missingEnvironment)

end Draft

/-- The dependency that a target starts from. -/
def entry (specifier : String) (target : Target) : Dependency :=
  Draft.complete
    { target := some target, specifierType := some .url, isEntry := some true
      needsStableName := some true }
    specifier target.env

end Dependency

end CodeSplit
