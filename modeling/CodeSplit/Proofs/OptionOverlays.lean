import CodeSplit.Config

/-!
What an overlay changes. Each option is taken from the overlay of the build mode where it gives that
option, and from the base otherwise. Manual bundles can be given under two keys, which are laid over
one another key by key before one of them is chosen: a list that the overlay gives under the legacy
key alone is hidden by one that the base gives under the present key.
-/
namespace CodeSplit

/-- The manual bundles that options give, under either key. -/
def Options.declared? (options : Options) : Option (List Declaration) :=
  options.manualSharedBundles <|> options.legacyManualSharedBundles

namespace Settings

variable (s : Settings) (mode : BuildMode) (root : Path) (flags : FeatureFlags)

/-- What the overlay of a mode gives for an option, or else the base. -/
def given {α : Type} (option : Options → Option α) : Option α :=
  (s.overlay mode).bind option <|> option s.options

/-- The rules of manual bundles, none being given meaning that there are none. -/
def rulesOf (declared : Option (List Declaration)) : List ManualRule :=
  (declared.getD []).map (ManualRule.ofDeclaration root)

/-- The overlay gives manual bundles under the legacy key alone, the base gives others under the
present key. -/
def Hidden : Prop :=
  ∃ overlay legacy present, s.overlay mode = some overlay ∧ overlay.manualSharedBundles = none ∧
    overlay.legacyManualSharedBundles = some legacy ∧
    s.options.manualSharedBundles = some present ∧
    rulesOf root (some legacy) ≠ rulesOf root (some present)

/-- Laying options over one another goes option by option. -/
theorem optionsIn_eq : s.optionsIn mode = {
    http := s.given mode Options.http
    minBundles := s.given mode Options.minBundles
    minBundleSize := s.given mode Options.minBundleSize
    maxParallelRequests := s.given mode Options.maxParallelRequests
    disableSharedBundles := s.given mode Options.disableSharedBundles
    manualSharedBundles := s.given mode Options.manualSharedBundles
    legacyManualSharedBundles := s.given mode Options.legacyManualSharedBundles } := by
  simp only [optionsIn, given]
  cases s.overlay mode <;> rfl

theorem manualRules_resolve :
    (s.resolve mode root flags).1.manualRules = rulesOf root (s.optionsIn mode).declared? := rfl

/-- A list is hidden only by one that the base gives. -/
theorem Hidden.exists_lists {s : Settings} {mode : BuildMode} {root : Path}
    (hidden : s.Hidden mode root) :
    ∃ legacy present, s.given mode Options.declared? = some legacy ∧
      (s.optionsIn mode).declared? = some present ∧
      s.options.manualSharedBundles = some present ∧
      rulesOf root (some legacy) ≠ rulesOf root (some present) := by
  obtain ⟨overlay, legacy, present, laid, unset, gives, hides, differ⟩ := hidden
  refine ⟨legacy, present, ?_, ?_, hides, differ⟩
  · simp [given, Options.declared?, laid, unset, gives]
  · simp [optionsIn_eq, given, Options.declared?, laid, unset, hides]

/-- Where no list is hidden, choosing a key and laying lists over one another can be exchanged. -/
theorem rulesOf_declared (shown : ¬ s.Hidden mode root) :
    rulesOf root (s.optionsIn mode).declared? = rulesOf root (s.given mode Options.declared?) := by
  rw [optionsIn_eq]
  cases laid : s.overlay mode with
  | none => simp [given, Options.declared?, laid]
  | some overlay =>
    cases present : overlay.manualSharedBundles with
    | some list => simp [given, Options.declared?, laid, present]
    | none =>
      cases legacy : overlay.legacyManualSharedBundles with
      | none => simp [given, Options.declared?, laid, present, legacy]
      | some list =>
        cases base : s.options.manualSharedBundles with
        | none => simp [given, Options.declared?, laid, present, legacy, base]
        | some other =>
          simp only [given, Options.declared?, laid, present, legacy, base, Option.bind_some]
          refine Classical.byContradiction fun differ => ?_
          exact shown ⟨overlay, list, other, laid, present, legacy, base, Ne.symm differ⟩

/-- The overlay of the mode prevails option by option, except that the base keeps its manual bundles
if it gives them under the present key and the overlay gives others under the legacy key alone. -/
theorem overlay_prevails_iff (s : Settings) (mode : BuildMode) (root : Path)
    (flags : FeatureFlags) :
    let config := (s.resolve mode root flags).1
    let http := (s.given mode Options.http).getD .http2
    config.minBundles = (s.given mode Options.minBundles).getD 1 ∧
      config.minBundleSize = (s.given mode Options.minBundleSize).getD http.minBundleSize ∧
      config.maxParallelRequests =
        (s.given mode Options.maxParallelRequests).getD http.maxParallelRequests ∧
      config.disableSharedBundles = (s.given mode Options.disableSharedBundles).getD false ∧
      (config.manualRules = rulesOf root (s.given mode Options.declared?) ↔
        ¬ s.Hidden mode root) ∧
      (config.manualRules = rulesOf root (s.given mode Options.declared?) ∨
        config.manualRules = rulesOf root s.options.manualSharedBundles) := by
  have options := s.optionsIn_eq mode
  refine ⟨?_, ?_, ?_, ?_, ?_, ?_⟩
  · simp [resolve, resolveOptions, options]
  · simp [resolve, resolveOptions, options]
  · simp [resolve, resolveOptions, options]
  · simp [resolve, resolveOptions, options]
  · rw [manualRules_resolve]
    constructor
    · intro same hidden
      obtain ⟨legacy, present, expected, chosen, _, differ⟩ := hidden.exists_lists
      rw [chosen, expected] at same
      exact differ same.symm
    · exact s.rulesOf_declared mode root
  · rw [manualRules_resolve]
    by_cases hidden : s.Hidden mode root
    · obtain ⟨_, present, _, chosen, base, _⟩ := hidden.exists_lists
      rw [chosen, base]
      exact .inr rfl
    · exact .inl (s.rulesOf_declared mode root hidden)

/-- In production the overlay names its manual bundle under the legacy key; the base has one under
the present key. -/
def legacyOverlay : Settings where
  options := {
    minBundleSize := some 100
    manualSharedBundles := some [{ name := "base", assets := ["a.js"] }] }
  production := some {
    http := some .http1
    legacyManualSharedBundles := some [{ name := "overlay", assets := ["b.js"] }] }

/-- The list of the overlay has no effect. -/
theorem legacyOverlay_hidden :
    rulesOf ⟨"/app"⟩ (legacyOverlay.given .production Options.declared?) =
        [{ name := "overlay", assets := ["/app/b.js"] }] ∧
      (legacyOverlay.resolve .production ⟨"/app"⟩ {}).1.manualRules =
        [{ name := "base", assets := ["/app/a.js"] }] := by
  decide +kernel

end Settings

end CodeSplit
