import CodeSplit.Proofs.CopiedAssets
import CodeSplit.Proofs.ManualExtraction

/-!
Manual bundles take their assets for good. An asset of a manual bundle has left every root that lets
it go, it is never shared, and what limiting copies later comes from roots that had let it go or
from shared bundles. So it is in no bundle of a root but those of roots that keep copies of all they
need.
-/
namespace CodeSplit

/-- Roots that keep their copies of what is moved into manual bundles. -/
theorem Root.isExtractable_eq_false_iff {r : Root} : r.isExtractable = false ↔
    r.isSingleFile = true ∨ r.triggers.inline = true ∨ r.triggers.isolated = true := by
  simp only [Root.isExtractable, Bool.and_eq_false_iff, Bool.not_eq_false', or_assoc]

/-- A root that may be reused, and is no single file, lets assets go. -/
theorem Root.isExtractable_of_isReusable {r : Root} (reusable : r.isReusable = true)
    (several : r.isSingleFile = false) : r.isExtractable = true := by
  simp only [Root.isReusable, Bool.not_eq_true', Bool.or_eq_false_iff] at reusable
  simp [Root.isExtractable, several, reusable.1.2, reusable.2]

namespace Plan

variable {p q walked extracted placed : Plan} {i : Index} {config : Config} {entries : List Entry}
  {target : Target} {reach : Reach} {packing : KeyMap AssetKey (KeySet AssetKey)} {e : Extraction}
  {claimed : KeySet AssetKey}

theorem manualBundles_shareAssets
    (success : (p.shareAssets i config claimed packing).result = .ok q) :
    q.manualBundles = p.manualBundles := by
  unfold shareAssets at success
  obtain ⟨s, considered, success⟩ := Report.result_bind_eq_ok.1 success
  obtain ⟨shared, settled, success⟩ := Report.result_bind_eq_ok.1 success
  cases success
  rw [Report.result_foldlM] at settled
  have packs : s.plan.manualBundles = p.manualBundles := by
    refine foldlM_ok_induction (fun _ s => s.plan.manualBundles = p.manualBundles) ?_ rfl considered
    intro entry _ before after same step
    exact (Sharing.consider_ok step).1.manualBundles.trans same
  refine foldlM_ok_induction (fun _ q => q.manualBundles = p.manualBundles) ?_ packs settled
  intro entry _ before after same step
  obtain ⟨size, _, ⟨_, rfl⟩ | ⟨_, rfl⟩⟩ := Sharing.settle_cases step
  · exact (packs_packAll_each before _ _ _).manualBundles.trans same
  · exact same

/-- Limiting keeps what each manual bundle holds. -/
theorem carries_limitRequests (roots : p.RootsReuse)
    (success : (p.limitRequests i config).result = .ok q) : Carries p q := by
  obtain ⟨_, run⟩ := removesIn_of_limitRequests success
  refine (run.keeps (motive := fun q => Carries p q ∧ q.RootsReuse) ?_
    ⟨.of_eq rfl rfl rfl, roots⟩).1
  rintro before group after ⟨carries, roots⟩ removes
  exact ⟨carries.trans (removes.carries roots).1, removes.rootsReuse roots⟩

/-- The manual bundles of the plan that is returned hold what was moved into them. -/
theorem moved_of_limitRequests (places : i.Places config entries placed)
    (moved : (walked.extractManualBundles i config packing).result = .ok (extracted, e))
    (shared : (extracted.shareAssets i config e.claimed e.consumers).result = .ok placed)
    (limited : (placed.limitRequests i config).result = .ok p) {key : ManualKey} {b : ManualBundle}
    (found : p.manualBundles.get? key = some b) : b.assets = (e.bundleAt key).assets := by
  obtain ⟨_, rfl⟩ := extractManualBundles_ok moved
  obtain ⟨old, before, same⟩ :=
    (carries_limitRequests (rootsReuse_of_places places) limited).manual key b found
  rw [manualBundles_shareAssets shared] at before
  rw [same, Extraction.bundleAt_of_get? before]

/-- A root that still has to package an asset which was moved keeps its copy. -/
theorem keeps_of_claimed
    (walks : (i.walkedPlan target entries).result = .ok (walked, reach))
    (consumed : (walked.consumers i reach).result = .ok packing)
    (moved : (walked.extractManualBundles i config packing).result = .ok (extracted, e))
    {m x : AssetKey} (left : m ∈ e.consumers.setAt x) (claimed : x ∈ e.claimed) :
    ∃ r, (i.roots entries).get? m = some r ∧ r.isExtractable = false := by
  obtain ⟨rfl, rfl⟩ := Index.walkedPlan_ok walks
  obtain ⟨extraction, _⟩ := extractManualBundles_ok moved
  have follows := Extraction.follows_extraction rfl extraction
  obtain ⟨waits, stays⟩ := follows.stays claimed left
  obtain ⟨_, _, _, _, packs⟩ := isPacking_of_consumers consumed
  obtain ⟨r, isRoot, _⟩ := Index.mem_reachedBy.1 ((packs x m).1 waits).1
  refine ⟨r, isRoot, ?_⟩
  by_contra lets
  exact stays (mem_extractableConsumers.2 ⟨waits, r, isRoot, Bool.not_eq_false _ ▸ lets⟩)

/-- Once all assets are placed, only roots that keep their copies have what was moved. -/
theorem admits_keepers (inside : i.ResolvesInside) (byId : i.EnvironmentsById)
    (walks : (i.walkedPlan target entries).result = .ok (walked, reach))
    (consumed : (walked.consumers i reach).result = .ok packing)
    (moved : (walked.extractManualBundles i config packing).result = .ok (extracted, e))
    (shared : (extracted.shareAssets i config e.claimed e.consumers).result = .ok placed) :
    placed.Admits fun root x => x ∈ e.claimed →
      ∃ r, (i.roots entries).get? root = some r ∧ r.isExtractable = false := by
  refine admits_of_passes walks moved shared ?_ ?_
  · intro x m left claimed
    exact keeps_of_claimed walks consumed moved left claimed
  · -- what is reused lets all go, so it passes nothing on that was moved
    intro a b reuses x keeps claimed
    obtain ⟨rfl, rfl⟩ := Index.walkedPlan_ok walks
    obtain ⟨_, other, isRoot, reusable, several⟩ := Index.plain_of_reuse inside byId reuses
    obtain ⟨r, known, stays⟩ := keeps claimed
    cases isRoot.symm.trans known
    rw [Root.isExtractable_of_isReusable reusable several] at stays
    cases stays

end Plan

/-- The assets of manual bundles in a plan that is returned, where different environments of the
graph have different ids. Each is in no second manual bundle and in no shared bundle, and the only
roots that package it are single files or have an inline or isolated trigger. -/
theorem manual_bundles_take_precedence (g : AssetGraph) (config : Config) (entries : List Entry)
    (p : Plan)
    (distinct : ∀ a b, .asset a ∈ g.nodes → .asset b ∈ g.nodes → a.env.id = b.env.id →
      a.env = b.env)
    (success : ((Index.ofGraph g).planTarget config entries).result = .ok p) :
    ∀ key b, p.manualBundles.get? key = some b → ∀ x ∈ b.assets,
      (∀ other c, p.manualBundles.get? other = some c → x ∈ c.assets → other = key) ∧
      (∀ s ∈ p.sharedBundles, x ∉ s.assets) ∧
      ∀ root fileType, x ∈ p.bucket root fileType → ∃ r, p.root? root = some r ∧
        (r.isSingleFile = true ∨ r.triggers.inline = true ∨ r.triggers.isolated = true) := by
  obtain ⟨entry, _, walked, reach, packing, extracted, e, placed, walks, consumed, moved, shared,
    limited⟩ := Index.planTarget_ok success
  have places := Index.places_of_passes walks consumed moved shared
  have empty : walked.manualBundles = ∅ := by rw [(Index.walkedPlan_ok walks).1]; rfl
  have follows := Extraction.follows_extraction empty (Plan.extractManualBundles_ok moved).1
  have chosen {key : ManualKey} {b : ManualBundle} (found : p.manualBundles.get? key = some b)
      {x : AssetKey} (member : x ∈ b.assets) :
      walked.manualKeyOf? (Index.ofGraph g) config packing x = some key := by
    rw [Plan.moved_of_limitRequests places moved shared limited found] at member
    exact (follows.assets key x).1 member
  intro key b found x member
  have chose := chosen found member
  refine ⟨?_, ?_, ?_⟩
  · intro other c foundToo memberToo
    exact Option.some_inj.1 ((chosen foundToo memberToo).symm.trans chose)
  · intro s listed shares
    obtain ⟨well, several⟩ := Plan.sharesWell_of_places places
    obtain ⟨well, _⟩ := Plan.sharesWell_limitRequests well several
      (Plan.rootsReuse_of_places places) limited
    exact ((well.fit s listed).assets x shares).notManual key b found member
  · intro root fileType packed
    have admits := (Plan.admits_keepers Index.resolvesInside_ofGraph
      (Index.environmentsById_ofGraph distinct) walks consumed moved shared).limitRequests limited
    have claimed : x ∈ e.claimed := by rw [follows.claimed, chose, Option.isSome_some]
    obtain ⟨r, isRoot, keeps⟩ := admits.packages root x ⟨fileType, packed⟩ claimed
    refine ⟨r, ?_, Root.isExtractable_eq_false_iff.1 keeps⟩
    rw [Plan.root?, Index.roots_of_planTarget success]
    exact isRoot

/-- The page `a` needs the page `b` at once and has a frame written into it. The page `b` and the
frame need a library. -/
def pagesWithFrame : AssetGraph :=
  let dependency (id : String) (priority : Priority) : AssetGraph.Node :=
    .dependency { id, specifier := id, priority }
  { nodes := [.root, .dependency { id := "entry", specifier := "index", isEntry := true },
      .asset { id := "index" }, dependency "load a" .lazy, .asset { id := "a" },
      dependency "load b" .lazy, .asset { id := "b" }, dependency "a to b" .sync,
      .dependency { id := "a to frame", specifier := "frame", behavior := some .inline },
      .asset { id := "frame" }, dependency "frame to lib" .sync,
      .asset { id := "lib", filePath := ⟨"/lib"⟩ }, dependency "b to lib" .sync]
    edges := [(0, 1), (1, 2), (2, 3), (3, 4), (2, 5), (5, 6), (4, 7), (7, 6), (4, 8), (8, 9),
      (9, 10), (10, 11), (6, 12), (12, 11)] }

def pagesWithFrameEntries : List Entry :=
  [⟨{ id := "entry", specifier := "index", isEntry := true }, 3, {}⟩]

def pagesWithFrameConfig : Config where
  maxParallelRequests := 2
  manualRules := [{ name := "vendor", assets := ["/lib"] }]

/-- The page `b` is copied into the page `a`, and the library stays behind in its bundle, which `a`
loads now. Only the frame packages the library. -/
theorem pagesWithFrame_vendor_stays :
    ∃ p, ((Index.ofGraph pagesWithFrame).planTarget pagesWithFrameConfig
        pagesWithFrameEntries).result = .ok p ∧
      p.manualBundles = .ofList [(⟨"vendor", .js, 0, 1⟩, ⟨.ofList [4], .ofList [0, 1]⟩)] ∧
      p.placements = .ofList [(0, .ofList [(.js, .ofList [0, 1])]),
        (1, .ofList [(.js, .ofList [1])]), (2, .ofList [(.js, .ofList [2, 4])]),
        (3, .ofList [(.js, .ofList [3])])] ∧
      ∀ root fileType, 4 ∈ p.bucket root fileType → ∃ r, p.root? root = some r ∧
        (r.isSingleFile = true ∨ r.triggers.inline = true ∨ r.triggers.isolated = true) := by
  have returns : ((Index.ofGraph pagesWithFrame).planTarget pagesWithFrameConfig
      pagesWithFrameEntries).result.map (fun p => (p.manualBundles, p.placements)) = .ok
        (.ofList [(⟨"vendor", .js, 0, 1⟩, ⟨.ofList [4], .ofList [0, 1]⟩)],
          .ofList [(0, .ofList [(.js, .ofList [0, 1])]), (1, .ofList [(.js, .ofList [1])]),
            (2, .ofList [(.js, .ofList [2, 4])]), (3, .ofList [(.js, .ofList [3])])]) := by
    decide +kernel
  obtain ⟨p, success, same⟩ := map_eq_ok_iff.1 returns
  obtain ⟨manual, placements⟩ := Prod.mk.inj same
  have distinct : ∀ a ∈ pagesWithFrame.nodes.filterMap AssetGraph.Node.asset?,
      ∀ b ∈ pagesWithFrame.nodes.filterMap AssetGraph.Node.asset?, a.env.id = b.env.id →
        a.env = b.env := by decide +kernel
  have listed {a : Asset} (member : .asset a ∈ pagesWithFrame.nodes) :
      a ∈ pagesWithFrame.nodes.filterMap AssetGraph.Node.asset? :=
    List.mem_filterMap.2 ⟨_, member, rfl⟩
  have found : p.manualBundles.get? ⟨"vendor", .js, 0, 1⟩ =
      some ⟨.ofList [4], .ofList [0, 1]⟩ := by
    rw [manual]
    decide
  exact ⟨p, success, manual, placements, (manual_bundles_take_precedence pagesWithFrame _ _ p
    (fun a b left right => distinct a (listed left) b (listed right)) success _ _ found 4
    (by decide)).2.2⟩

end CodeSplit
