import CodeSplit.Proofs.Homogeneity

/-!
What is moved into manual bundles. Rules are applied one after the other, each to all assets that
are left, so an asset goes to the bundle that the first rule has for it which names it: the bundle
is a function of the asset. Its key has no place for an environment, and so a bundle is of one
environment only where the rules keep environments apart.
-/
namespace CodeSplit

namespace Plan

variable (p : Plan) (i : Index) (config : Config) (packing : KeyMap AssetKey (KeySet AssetKey))

/-- The bundle that a rule has for an asset: the rule names it, and a root that would package it
lets it go. -/
def keyUnder? (x : AssetKey) (rule : ManualRule) : Option ManualKey := do
  let asset ← i.asset? x
  let scope := rule.root.map (i.synchronousSubgraph config.projectRoot)
  if p.isNamedBy config rule x asset && scope.all (fun s => decide (x ∈ s)) &&
      !(p.extractableConsumers (packing.setAt x)).isEmpty then
    (rule.partitionOf asset.id).toOption.map (⟨rule.name, asset.fileType, ·, rule.split⟩)
  else none

/-- The bundle of the first rule that has one for the asset. -/
def manualKeyOf? (x : AssetKey) : Option ManualKey :=
  config.manualRules.findSome? (p.keyUnder? i config packing x)

end Plan

namespace Extraction

open Plan

variable {p : Plan} {i : Index} {config : Config} {packing : KeyMap AssetKey (KeySet AssetKey)}
  {e next : Extraction} {chosen later : AssetKey → Option ManualKey} {x : AssetKey}

/-- The bundle of a key, empty if there is none. -/
def bundleAt (e : Extraction) (key : ManualKey) : ManualBundle := (e.bundles.get? key).getD {}

theorem bundleAt_of_get? {key : ManualKey} {b : ManualBundle}
    (found : e.bundles.get? key = some b) : e.bundleAt key = b := by
  rw [bundleAt, found, Option.getD_some]

theorem bundleAt_move (e : Extraction) (key other : ManualKey) (asset : AssetKey)
    (consumers moved : KeySet AssetKey) :
    (e.move key asset consumers moved).bundleAt other =
      if key = other then
        ⟨(e.bundleAt key).assets.insert asset, (e.bundleAt key).consumers.union moved⟩
      else e.bundleAt other := by
  unfold bundleAt move
  rw [KeyMap.get?_update]
  split
  · rfl
  · rfl

/-- The extraction has moved each asset into the bundle that is chosen for it, out of all roots that
let it go, and nothing else. -/
structure Follows (p : Plan) (packing : KeyMap AssetKey (KeySet AssetKey))
    (chosen : AssetKey → Option ManualKey) (e : Extraction) : Prop where
  claimed : ∀ x, x ∈ e.claimed ↔ (chosen x).isSome
  assets : ∀ key x, x ∈ (e.bundleAt key).assets ↔ chosen x = some key
  consumers : ∀ key m, m ∈ (e.bundleAt key).consumers ↔
    ∃ x, chosen x = some key ∧ m ∈ p.extractableConsumers (packing.setAt x)
  filled : ∀ key b, e.bundles.get? key = some b → ∃ x, x ∈ b.assets
  left : ∀ x, e.consumers.get? x = (packing.get? x).map fun roots =>
    if (chosen x).isSome then roots.diff (p.extractableConsumers roots) else roots

/-- A move chooses the bundle for its asset. -/
theorem Follows.move (follows : e.Follows p packing chosen) {key : ManualKey}
    {roots : KeySet AssetKey} (current : packing.get? x = some roots)
    (fresh : chosen x = none) (takes : later x = some key)
    (same : ∀ y, y ≠ x → later y = chosen y) :
    (e.move key x roots (p.extractableConsumers roots)).Follows p packing later := by
  have waiting : packing.setAt x = roots := by rw [KeyMap.setAt, current, Option.getD_some]
  have choice (y : AssetKey) (other : ManualKey) :
      later y = some other ↔ (y = x ∧ key = other) ∨ chosen y = some other := by
    by_cases moved : y = x
    · subst moved
      simp [takes, fresh]
    · simp [same y moved, moved]
  refine ⟨?_, ?_, ?_, ?_, ?_⟩
  · intro y
    simp only [Extraction.move, KeySet.mem_insert, follows.claimed]
    by_cases moved : y = x
    · simp [moved, takes]
    · simp [moved, same y moved]
  · intro other y
    rw [bundleAt_move, choice, ← follows.assets]
    split
    · rename_i equal
      simp [equal]
    · rename_i differs
      simp [differs]
  · intro other m
    simp only [bundleAt_move, choice, or_and_right, exists_or, ← follows.consumers]
    split
    · rename_i equal
      simp [equal, waiting, or_comm]
    · rename_i differs
      simp [differs]
  · intro other b found
    simp only [Extraction.move, KeyMap.get?_update] at found
    split at found
    · cases found
      exact ⟨x, KeySet.mem_insert.2 (.inl rfl)⟩
    · exact follows.filled other b found
  · intro y
    simp only [Extraction.move, KeyMap.get?_insert]
    by_cases moved : x = y
    · subst moved
      simp [current, takes]
    · rw [if_neg moved, follows.left y, same y (Ne.symm moved)]

/-- The roots that are left to package an asset which was moved do not let it go. -/
theorem Follows.stays (follows : e.Follows p packing chosen) (claimed : x ∈ e.claimed)
    {m : AssetKey} (left : m ∈ e.consumers.setAt x) :
    m ∈ packing.setAt x ∧ m ∉ p.extractableConsumers (packing.setAt x) := by
  have kept := follows.left x
  rw [(follows.claimed x).1 claimed] at kept
  unfold KeyMap.setAt at left ⊢
  cases waiting : packing.get? x with
  | none =>
    rw [kept, waiting] at left
    exact absurd left (KeySet.not_mem_empty m)
  | some roots =>
    rw [kept, waiting] at left
    exact KeySet.mem_diff.1 left

/-- A rule that looks at an asset which no rule has claimed moves it into the bundle that it has for
it. -/
theorem moveMatching_eq {rule : ManualRule} {candidate : AssetKey × KeySet AssetKey}
    (current : candidate.1 ∉ e.claimed → packing.get? candidate.1 = some candidate.2)
    (success : p.moveMatching i config rule
      (rule.root.map (i.synchronousSubgraph config.projectRoot)) e candidate = .ok next) :
    (candidate.1 ∈ e.claimed ∧ next = e) ∨
      (candidate.1 ∉ e.claimed ∧ p.keyUnder? i config packing candidate.1 rule = none ∧ next = e) ∨
      ∃ key, candidate.1 ∉ e.claimed ∧ p.keyUnder? i config packing candidate.1 rule = some key ∧
        next = e.move key candidate.1 candidate.2 (p.extractableConsumers candidate.2) := by
  obtain ⟨x, roots⟩ := candidate
  by_cases claimed : x ∈ e.claimed
  · unfold moveMatching at success
    simp only [claimed, if_true] at success
    cases success
    exact .inl ⟨claimed, rfl⟩
  · have waiting : packing.setAt x = roots := by
      rw [KeyMap.setAt, current claimed, Option.getD_some]
    unfold moveMatching at success
    simp only [claimed, if_false] at success
    obtain ⟨asset, known, success⟩ := bind_eq_ok_iff.1 success
    unfold keyUnder?
    simp only [waiting, Index.asset_eq_ok_iff.1 known, Option.bind_eq_bind, Option.bind_some]
    split at success
    · rename_i moves
      obtain ⟨partition, part, success⟩ := bind_eq_ok_iff.1 success
      cases success
      exact .inr (.inr ⟨_, claimed, by rw [if_pos moves, part]; rfl, rfl⟩)
    · rename_i stays
      cases success
      exact .inr (.inl ⟨claimed, if_neg stays, rfl⟩)

theorem keyUnder?_eq_none {rule : ManualRule} (absent : packing.get? x = none) :
    p.keyUnder? i config packing x rule = none := by
  unfold Plan.keyUnder? Plan.extractableConsumers KeyMap.setAt
  rw [absent]
  cases i.asset? x with
  | none => rfl
  | some asset => simp [KeySet.isEmpty, KeySet.filter]

/-- The bundles for the assets while a rule is being applied, in the order of the assets: it has
been applied to all but those still to come. -/
def chosenSoFar (p : Plan) (i : Index) (config : Config)
    (packing : KeyMap AssetKey (KeySet AssetKey)) (rule : ManualRule)
    (chosen : AssetKey → Option ManualKey) (coming : List AssetKey) (x : AssetKey) :
    Option ManualKey :=
  if x ∈ coming then chosen x else (chosen x).or (p.keyUnder? i config packing x rule)

/-- Applying a rule to the next asset. -/
theorem Follows.applyTo {rule : ManualRule} {c : AssetKey × KeySet AssetKey}
    {coming : List AssetKey} (fresh : c.1 ∉ coming)
    (waits : chosen c.1 = none → packing.get? c.1 = some c.2)
    (follows : e.Follows p packing (chosenSoFar p i config packing rule chosen (c.1 :: coming)))
    (success : p.moveMatching i config rule
      (rule.root.map (i.synchronousSubgraph config.projectRoot)) e c = .ok next) :
    next.Follows p packing (chosenSoFar p i config packing rule chosen coming) := by
  have before : chosenSoFar p i config packing rule chosen (c.1 :: coming) c.1 = chosen c.1 :=
    if_pos List.mem_cons_self
  have after : chosenSoFar p i config packing rule chosen coming c.1 =
      (chosen c.1).or (p.keyUnder? i config packing c.1 rule) := if_neg fresh
  have elsewhere (y : AssetKey) (other : y ≠ c.1) :
      chosenSoFar p i config packing rule chosen coming y =
        chosenSoFar p i config packing rule chosen (c.1 :: coming) y := by
    simp only [chosenSoFar, List.mem_cons, other, false_or]
  have unchanged (same : (chosen c.1).or (p.keyUnder? i config packing c.1 rule) = chosen c.1) :
      chosenSoFar p i config packing rule chosen coming =
        chosenSoFar p i config packing rule chosen (c.1 :: coming) := by
    funext y
    by_cases this : y = c.1
    · rw [this, after, same, before]
    · exact elsewhere y this
  have unclaimed (absent : c.1 ∉ e.claimed) : chosen c.1 = none := by
    rwa [follows.claimed, before, Option.not_isSome_iff_eq_none] at absent
  rcases moveMatching_eq (fun absent => waits (unclaimed absent)) success with
    ⟨claimed, rfl⟩ | ⟨_, none, rfl⟩ | ⟨key, absent, chooses, rfl⟩
  · rw [follows.claimed, before] at claimed
    obtain ⟨key, chose⟩ := Option.isSome_iff_exists.1 claimed
    rwa [unchanged (by rw [chose, Option.some_or])]
  · rwa [unchanged (by rw [none, Option.or_none])]
  · have free := unclaimed absent
    refine follows.move (waits free) (before.trans free) ?_ elsewhere
    rw [after, free, Option.none_or, chooses]

/-- After a rule, each asset that was not moved before is in the bundle that the rule has for it. -/
theorem Follows.applyRule {rule : ManualRule} (follows : e.Follows p packing chosen)
    (success : p.applyRule i config e rule = .ok next) :
    next.Follows p packing fun x => (chosen x).or (p.keyUnder? i config packing x rule) := by
  unfold Plan.applyRule at success
  have run := foldlM_ok_induction (fun rest s => (rest.map Prod.fst).Nodup ∧
    (∀ c ∈ rest, e.consumers.get? c.1 = some c.2) ∧
    s.Follows p packing (chosenSoFar p i config packing rule chosen (rest.map Prod.fst))) ?_
    ⟨e.consumers.nodup_keys, fun c listed => KeyMap.get?_eq_some_iff.2 listed, ?_⟩ success
  · exact run.2.2
  · rintro c rest before after ⟨distinct, listed, current⟩ step
    obtain ⟨fresh, distinct⟩ := List.nodup_cons.1 distinct
    refine ⟨distinct, fun d member => listed d (List.mem_cons_of_mem _ member),
      current.applyTo fresh ?_ step⟩
    intro unclaimed
    have found := listed c List.mem_cons_self
    rw [follows.left, unclaimed] at found
    simpa using found
  · -- what waits for no root is moved by no rule
    have start : chosenSoFar p i config packing rule chosen e.consumers.keys = chosen := by
      funext y
      unfold chosenSoFar
      split
      · rfl
      · rename_i unlisted
        have absent : packing.get? y = none := by
          by_contra present
          obtain ⟨roots, found⟩ := Option.ne_none_iff_exists'.1 present
          have left := follows.left y
          rw [found, Option.map_some] at left
          exact unlisted (KeyMap.mem_keys_iff.2 ⟨_, left⟩)
        rw [keyUnder?_eq_none absent, Option.or_none]
    exact start.symm ▸ follows

/-- All rules together: an asset goes to the bundle of the first rule that has one for it. -/
theorem follows_extraction (empty : p.manualBundles = ∅)
    (success : p.extraction i config packing = .ok e) :
    e.Follows p packing (p.manualKeyOf? i config packing) := by
  unfold Plan.extraction at success
  have run := foldlM_ok_induction (fun rest s => ∃ done, done ++ rest = config.manualRules ∧
    s.Follows p packing fun x => done.findSome? (p.keyUnder? i config packing x)) ?_
    ⟨[], rfl, ?_⟩ success
  · obtain ⟨done, all, follows⟩ := run
    rw [List.append_nil] at all
    rw [all] at follows
    exact follows
  · rintro rule rest before after ⟨done, all, follows⟩ step
    refine ⟨done ++ [rule], by simp [← all], ?_⟩
    have applied := follows.applyRule step
    simp only [List.findSome?_append, List.findSome?_singleton]
    exact applied
  · rw [empty]
    refine ⟨fun x => ?_, fun key x => ?_, fun key m => ?_, fun key b found => ?_, fun x => ?_⟩
    · simp
    · simp [bundleAt]
    · simp [bundleAt]
    · simp at found
    · simp

end Extraction

namespace Plan

variable {p walked extracted : Plan} {i : Index} {config : Config} {entries : List Entry}
  {target : Target} {reach : Reach} {packing : KeyMap AssetKey (KeySet AssetKey)} {e : Extraction}

theorem mem_extractableConsumers {consumers : KeySet AssetKey} {c : AssetKey} :
    c ∈ p.extractableConsumers consumers ↔
      c ∈ consumers ∧ ∃ r, p.root? c = some r ∧ r.isExtractable = true := by
  simp [extractableConsumers, Option.any_eq_true]

/-- A root lets go only assets of its own environment. -/
theorem sameEnvironment_of_extractable (inside : i.ResolvesInside) (byId : i.EnvironmentsById)
    (walks : (i.walkedPlan target entries).result = .ok (walked, reach))
    (consumed : (walked.consumers i reach).result = .ok packing) {c x : AssetKey}
    (takes : c ∈ walked.extractableConsumers (packing.setAt x)) : i.SameEnvironment c x := by
  obtain ⟨rfl, rfl⟩ := Index.walkedPlan_ok walks
  obtain ⟨_, _, _, _, packs⟩ := isPacking_of_consumers consumed
  obtain ⟨waits, r, known, extractable⟩ := mem_extractableConsumers.1 takes
  have several : r.isSingleFile = false := by
    unfold Root.isExtractable at extractable
    simp only [Bool.and_eq_true, Bool.not_eq_true'] at extractable
    exact extractable.1.1
  obtain ⟨other, isRoot, path⟩ := Index.mem_reachedBy.1 ((packs x c).1 waits).1
  cases known.symm.trans isRoot
  exact (Index.sameEnvironment_of_walk inside byId known several path).1

/-- The bundle of the key of an asset takes it from some root. -/
theorem exists_extractable_of_manualKeyOf? {x : AssetKey} {key : ManualKey}
    (chosen : p.manualKeyOf? i config packing x = some key) :
    ∃ c, c ∈ p.extractableConsumers (packing.setAt x) := by
  obtain ⟨rule, _, chosen⟩ := List.exists_of_findSome?_eq_some chosen
  unfold keyUnder? at chosen
  obtain ⟨asset, _, chosen⟩ := Option.bind_eq_some_iff.1 chosen
  by_contra none
  have empty : (p.extractableConsumers (packing.setAt x)).isEmpty = true :=
    KeySet.isEmpty_iff.2 fun c takes => none ⟨c, takes⟩
  simp [empty] at chosen

end Plan

/-- Collects and walks the roots, finds the consumers and moves assets into manual bundles. -/
def Index.extractedPlan (i : Index) (config : Config) (target : Target) (entries : List Entry) :
    Report (Plan × Extraction) := do
  let (walked, reach) ← i.walkedPlan target entries
  let packing ← walked.consumers i reach
  walked.extractManualBundles i config packing

theorem Index.extractedPlan_ok {i : Index} {config : Config} {target : Target}
    {entries : List Entry} {result : Plan × Extraction}
    (success : (i.extractedPlan config target entries).result = .ok result) :
    ∃ walked reach packing, (i.walkedPlan target entries).result = .ok (walked, reach) ∧
      (walked.consumers i reach).result = .ok packing ∧
      (walked.extractManualBundles i config packing).result = .ok result := by
  unfold extractedPlan at success
  obtain ⟨⟨walked, reach⟩, walks, success⟩ := Report.result_bind_eq_ok.1 success
  obtain ⟨packing, consumed, moved⟩ := Report.result_bind_eq_ok.1 success
  exact ⟨walked, reach, packing, walks, consumed, moved⟩

/-- The environments of a manual bundle of a graph in which different environments have different
ids. The bundle of a key has exactly the assets for which the rules choose the key. Each of them is
of the environment of a consumer, and each consumer is of the environment of one of them; but all
are of a single environment only if those assets are, since the rules do not look at environments.
-/
theorem manual_bundle_has_one_environment_iff (g : AssetGraph) (config : Config) (target : Target)
    (entries : List Entry) (walked extracted : Plan) (reach : Reach)
    (packing : KeyMap AssetKey (KeySet AssetKey)) (e : Extraction) (key : ManualKey)
    (b : ManualBundle)
    (distinct : ∀ a b, .asset a ∈ g.nodes → .asset b ∈ g.nodes → a.env.id = b.env.id →
      a.env = b.env)
    (walks : ((Index.ofGraph g).walkedPlan target entries).result = .ok (walked, reach))
    (consumed : (walked.consumers (Index.ofGraph g) reach).result = .ok packing)
    (moved : (walked.extractManualBundles (Index.ofGraph g) config packing).result =
      .ok (extracted, e))
    (found : extracted.manualBundles.get? key = some b) :
    (∀ x, x ∈ b.assets ↔ walked.manualKeyOf? (Index.ofGraph g) config packing x = some key) ∧
    (∀ x ∈ b.assets, ∃ c ∈ b.consumers, (Index.ofGraph g).SameEnvironment c x) ∧
    (∀ c ∈ b.consumers, ∃ x ∈ b.assets, (Index.ofGraph g).SameEnvironment c x) ∧
    ((∃ id, (∀ x ∈ b.assets, (Index.ofGraph g).envId? x = some id) ∧
        ∀ c ∈ b.consumers, (Index.ofGraph g).envId? c = some id) ↔
      ∀ x y, walked.manualKeyOf? (Index.ofGraph g) config packing x = some key →
        walked.manualKeyOf? (Index.ofGraph g) config packing y = some key →
          (Index.ofGraph g).envId? x = (Index.ofGraph g).envId? y) := by
  obtain ⟨extraction, rfl⟩ := Plan.extractManualBundles_ok moved
  have same {c x : AssetKey} (takes : c ∈ walked.extractableConsumers (packing.setAt x)) :
      (Index.ofGraph g).SameEnvironment c x :=
    Plan.sameEnvironment_of_extractable Index.resolvesInside_ofGraph
      (Index.environmentsById_ofGraph distinct) walks consumed takes
  have empty : walked.manualBundles = ∅ := by rw [(Index.walkedPlan_ok walks).1]; rfl
  have follows := Extraction.follows_extraction empty extraction
  have assets := follows.assets key
  have consumers := follows.consumers key
  rw [Extraction.bundleAt_of_get? found] at assets consumers
  have taken : ∀ x ∈ b.assets, ∃ c ∈ b.consumers, (Index.ofGraph g).SameEnvironment c x := by
    intro x member
    obtain ⟨c, takes⟩ := Plan.exists_extractable_of_manualKeyOf? ((assets x).1 member)
    exact ⟨c, (consumers c).2 ⟨x, (assets x).1 member, takes⟩, same takes⟩
  have took : ∀ c ∈ b.consumers, ∃ x ∈ b.assets, (Index.ofGraph g).SameEnvironment c x := by
    intro c consumer
    obtain ⟨x, chosen, takes⟩ := (consumers c).1 consumer
    exact ⟨x, (assets x).2 chosen, same takes⟩
  refine ⟨assets, taken, took, ?_, ?_⟩
  · rintro ⟨id, all, _⟩ x y left right
    rw [all x ((assets x).2 left), all y ((assets y).2 right)]
  · intro agree
    obtain ⟨x, member⟩ := follows.filled key b found
    obtain ⟨c, _, id, _, known⟩ := taken x member
    have all : ∀ y ∈ b.assets, (Index.ofGraph g).envId? y = some id := by
      intro y listed
      rw [agree y x ((assets y).1 listed) ((assets x).1 member), known]
    refine ⟨id, all, ?_⟩
    intro c consumer
    obtain ⟨y, listed, other, left, right⟩ := took c consumer
    rw [left, ← right, all y listed]

/-- A page has a library and starts a worker, which has a tool. A theme comes with the page too. -/
def libraryAndTool : AssetGraph :=
  let dependency (id : String) : AssetGraph.Node := .dependency { id, specifier := id }
  let worker : Environment := { context := .webWorker }
  { nodes := [.root, .dependency { id := "entry", specifier := "index", isEntry := true },
      .asset { id := "index", filePath := ⟨"/index"⟩ }, dependency "index to lib",
      .asset { id := "lib", filePath := ⟨"/lib"⟩ }, dependency "index to worker",
      .asset { id := "worker", filePath := ⟨"/worker"⟩, env := worker },
      dependency "worker to tool", .asset { id := "tool", filePath := ⟨"/tool"⟩, env := worker },
      dependency "index to theme", .asset { id := "theme", filePath := ⟨"/theme"⟩ }]
    edges := [(0, 1), (1, 2), (2, 3), (3, 4), (2, 5), (5, 6), (6, 7), (7, 8), (2, 9), (9, 10)] }

def libraryAndToolEntries : List Entry :=
  [⟨{ id := "entry", specifier := "index", isEntry := true }, 0, {}⟩]

def libraryAndToolConfig : Config where
  manualRules := [{ name := "vendor", assets := ["/lib", "/tool"] },
    { name := "looks", assets := ["/theme"] }]

/-- The library of the page and the tool of the worker are in one bundle, which both load. -/
theorem libraryAndTool_mixes_environments :
    ∃ walked reach packing extracted e b,
      ((Index.ofGraph libraryAndTool).walkedPlan {} libraryAndToolEntries).result =
        .ok (walked, reach) ∧
      (walked.consumers (Index.ofGraph libraryAndTool) reach).result = .ok packing ∧
      (walked.extractManualBundles (Index.ofGraph libraryAndTool) libraryAndToolConfig
        packing).result = .ok (extracted, e) ∧
      extracted.manualBundles.get? ⟨"vendor", .js, 0, 1⟩ = some b ∧
      1 ∈ b.assets ∧ 3 ∈ b.assets ∧ 0 ∈ b.consumers ∧ 4 ∈ b.consumers ∧
      (Index.ofGraph libraryAndTool).envId? 1 ≠ (Index.ofGraph libraryAndTool).envId? 3 ∧
      (Index.ofGraph libraryAndTool).envId? 0 ≠ (Index.ofGraph libraryAndTool).envId? 3 := by
  have returns : ((Index.ofGraph libraryAndTool).extractedPlan libraryAndToolConfig {}
      libraryAndToolEntries).result.map (fun r => r.1.manualBundles.get? ⟨"vendor", .js, 0, 1⟩) =
        .ok (some ⟨.ofList [1, 3], .ofList [0, 4]⟩) := by decide +kernel
  obtain ⟨r, success, found⟩ := map_eq_ok_iff.1 returns
  obtain ⟨walked, reach, packing, walks, consumed, moved⟩ := Index.extractedPlan_ok success
  exact ⟨walked, reach, packing, r.1, r.2, _, walks, consumed, moved, found, by decide +kernel⟩

/-- The theme of the page is in a bundle of one environment. -/
theorem libraryAndTool_looks_of_one_environment :
    ∃ walked reach packing extracted e b,
      ((Index.ofGraph libraryAndTool).walkedPlan {} libraryAndToolEntries).result =
        .ok (walked, reach) ∧
      (walked.consumers (Index.ofGraph libraryAndTool) reach).result = .ok packing ∧
      (walked.extractManualBundles (Index.ofGraph libraryAndTool) libraryAndToolConfig
        packing).result = .ok (extracted, e) ∧
      extracted.manualBundles.get? ⟨"looks", .js, 0, 1⟩ = some b ∧ 2 ∈ b.assets ∧
      ∃ id, (∀ x ∈ b.assets, (Index.ofGraph libraryAndTool).envId? x = some id) ∧
        ∀ c ∈ b.consumers, (Index.ofGraph libraryAndTool).envId? c = some id := by
  have returns : ((Index.ofGraph libraryAndTool).extractedPlan libraryAndToolConfig {}
      libraryAndToolEntries).result.map (fun r => r.1.manualBundles.get? ⟨"looks", .js, 0, 1⟩) =
        .ok (some ⟨.ofList [2], .ofList [0]⟩) := by decide +kernel
  obtain ⟨r, success, found⟩ := map_eq_ok_iff.1 returns
  obtain ⟨walked, reach, packing, walks, consumed, moved⟩ := Index.extractedPlan_ok success
  have distinct : ∀ a ∈ libraryAndTool.nodes.filterMap AssetGraph.Node.asset?,
      ∀ b ∈ libraryAndTool.nodes.filterMap AssetGraph.Node.asset?, a.env.id = b.env.id →
        a.env = b.env := by decide +kernel
  have listed {a : Asset} (member : .asset a ∈ libraryAndTool.nodes) :
      a ∈ libraryAndTool.nodes.filterMap AssetGraph.Node.asset? :=
    List.mem_filterMap.2 ⟨_, member, rfl⟩
  obtain ⟨assets, _, _, one⟩ := manual_bundle_has_one_environment_iff libraryAndTool _ _ _ walked
    r.1 reach packing r.2 _ _ (fun a b left right => distinct a (listed left) b (listed right))
    walks consumed moved found
  refine ⟨walked, reach, packing, r.1, r.2, _, walks, consumed, moved, found, by decide, one.2 ?_⟩
  intro x y left right
  have left := (assets x).2 left
  have right := (assets y).2 right
  rw [KeySet.mem_ofList, List.mem_singleton] at left right
  rw [left, right]

end CodeSplit
