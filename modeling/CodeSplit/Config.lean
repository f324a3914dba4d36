import CodeSplit.Config.Located
import CodeSplit.Config.Settings
import CodeSplit.Event
import CodeSplit.FeatureFlags
import CodeSplit.Glob

/-!
The resolved configuration that bundling runs with: every option has a value, and the files of
manual bundles are named from the root of the file system.
-/
namespace CodeSplit

/-- A manual bundle with its globs taken from the project root. -/
structure ManualRule where
  name : String
  root : Option Path := none
  assets : List String
  types : Option (List FileType) := none
  split : Nat := 1
  deriving DecidableEq, Repr

namespace ManualRule

def matchesType (rule : ManualRule) (fileType : FileType) : Bool :=
  rule.types.all fun types => decide (fileType ∈ types)

def matchesPath (rule : ManualRule) (projectRoot filePath : Path) : Bool :=
  let located := projectRoot.resolveFrom filePath
  rule.assets.any fun glob => Glob.isMatch glob located.text

def ofDeclaration (projectRoot : Path) (d : Declaration) : ManualRule where
  name := d.name
  root := d.root.map projectRoot.resolveFrom
  assets := d.assets.map fun glob => (projectRoot.resolveFrom ⟨glob⟩).text
  types := d.types
  split := max (d.split.getD 1) 1

end ManualRule

structure Config where
  projectRoot : Path := ⟨"/"⟩
  minBundles : Nat := 1
  minBundleSize : Nat := HttpVersion.http2.minBundleSize
  maxParallelRequests : Nat := HttpVersion.http2.maxParallelRequests
  disableSharedBundles : Bool := false
  manualRules : List ManualRule := []
  /-- Whether chunk names declared in the source name bundles. -/
  useChunkNames : Bool := false
  deriving DecidableEq, Repr, Inhabited

namespace Config

/-- The least number of roots that must need an asset before it is shared. -/
def sharedThreshold (c : Config) : Nat := max c.minBundles 2

def chunkNameFlag : String := "supportWebpackChunkName"

end Config

namespace Settings

/-- The warning that an option without effect is set. -/
def ignoredOption (s : Settings) (option : String) (value : Nat) : Diagnostic where
  message := "The value of \"" ++ toString value ++ "\" set for " ++ option ++
    " will not be used as shared bundles have been disabled"
  origin := some key
  codeFrames := s.source.map fun source =>
    [{ code := some source.contents
       filePath := some source.filePath
       highlights := (locateKey? source.contents option).toList.map fun (start, stop) =>
        { start, stop, message := some "This option has no effect" } }]

/-- Options about shared bundles that are set while these are disabled. -/
def warnings (s : Settings) (options : Options) : Diagnostics :=
  if options.disableSharedBundles.getD false then
    [("minBundles", options.minBundles), ("minBundleSize", options.minBundleSize),
      ("maxParallelRequests", options.maxParallelRequests)].filterMap fun (option, value) =>
      value.map (s.ignoredOption option)
  else []

/-- The rules of manual bundles; the present key wins over the legacy one. -/
def manualRules (projectRoot : Path) (options : Options) : List ManualRule :=
  let declared := options.manualSharedBundles <|> options.legacyManualSharedBundles
  (declared.getD []).map (ManualRule.ofDeclaration projectRoot)

def resolveOptions (options : Options) (projectRoot : Path) (flags : FeatureFlags) : Config :=
  let http := options.http.getD .http2
  { projectRoot
    minBundles := options.minBundles.getD 1
    minBundleSize := options.minBundleSize.getD http.minBundleSize
    maxParallelRequests := options.maxParallelRequests.getD http.maxParallelRequests
    disableSharedBundles := options.disableSharedBundles.getD false
    manualRules := manualRules projectRoot options
    useChunkNames := flags.isEnabled Config.chunkNameFlag }

/-- Applies the overlay of the mode and fills in defaults. -/
def resolve (s : Settings) (mode : BuildMode) (projectRoot : Path) (flags : FeatureFlags) :
    Config × Diagnostics :=
  let options := s.optionsIn mode
  (resolveOptions options projectRoot flags, s.warnings options)

def resolvedEvent (mode : BuildMode) (config : Config) (warnings : Diagnostics) : Event where
  level := .debug
  message := "resolved bundler config"
  fields := [
    ("mode", .text mode.display),
    ("min_bundles", .number config.minBundles),
    ("min_bundle_size", .number config.minBundleSize),
    ("max_parallel_requests", .number config.maxParallelRequests),
    ("disable_shared_bundles", .flag config.disableSharedBundles),
    ("manual_shared_bundles", .number config.manualRules.length),
    ("warnings", .number warnings.length)]

end Settings

end CodeSplit
