import CodeSplit.Proofs.GroupListing

/-!
What a group requests, against what is counted when requests are limited. A bundle is counted for a
group unless it belongs to an inline root. It is requested unless the first bundle to write that has
its id belongs to an inline root, as that one decides how the written bundle behaves.
-/
namespace CodeSplit

open BundleGraph

/-! Counting. -/

theorem total_map_ite {α : Type} {xs : List α} {q : α → Bool} {f : α → Nat} :
    total (xs.map fun x => if q x then f x else 0) = total ((xs.filter q).map f) := by
  induction xs with
  | nil => rfl
  | cons x xs ih =>
    cases chosen : q x with
    | false => simp [chosen, ih]
    | true => simp [chosen, ih]

theorem total_eq_of_perm {xs ys : List Nat} (perm : xs.Perm ys) : total xs = total ys := by
  induction perm with
  | nil => rfl
  | cons x _ ih => simp [ih]
  | swap x y zs => simp [Nat.add_left_comm]
  | trans _ _ first second => exact first.trans second

theorem countP_flatMap_eq_total {α β : Type} (q : β → Bool) (f : α → List β) (xs : List α) :
    (xs.flatMap f).countP q = total (xs.map fun x => (f x).countP q) := by
  induction xs with
  | nil => rfl
  | cons x xs ih => simp [ih]

namespace BundleGraph

/-- How many of the bundles that were selected and could be made have a property. -/
theorem length_filter_made {planned : List (BundleOrigin × Except Fault Bundle)}
    {selected : BundleOrigin → Bool} {has : Bundle → Bool} :
    ((made (planned.filter fun e => selected e.1)).filter has).length =
      planned.countP fun e => selected e.1 && e.2.toOption.any has := by
  induction planned with
  | nil => rfl
  | cons entry rest ih =>
    obtain ⟨origin, result⟩ := entry
    rw [List.countP_cons, ← ih]
    cases selects : selected origin with
    | false => simp [selects]
    | true =>
      cases result with
      | error fault => simp [selects, made, Except.toOption]
      | ok b =>
        cases holds : has b with
        | false => simp [selects, holds, made, Except.toOption]
        | true => simp [selects, holds, made, Except.toOption]

theorem bundlesInGroup_false (g : BundleGraph) (id : String) :
    g.bundlesInGroup id false = (g.bundlesInGroup id true).filter fun b => !b.isInline := by
  simp [bundlesInGroup]

end BundleGraph

namespace Plan

variable {p : Plan} {i : Index} {config : Config} {group : AssetKey}

/-- Whether a group loads the bundles of this origin. -/
def loadsOrigin (p : Plan) (group : AssetKey) : BundleOrigin → Bool
  | .bucket root _ => decide (root ∈ p.members group)
  | .loaded _ consumers => consumers.meets (p.members group)

theorem loadsOrigin_iff {origin : BundleOrigin} :
    p.loadsOrigin group origin = true ↔ p.LoadsOrigin group origin := by
  cases origin with
  | bucket root fileType => exact decide_eq_true_iff
  | loaded fileType consumers => exact KeySet.meets_iff

/-- The bundles to write that a group loads. -/
def loadedBundles (p : Plan) (i : Index) (config : Config) (group : AssetKey) : List Bundle :=
  made ((p.plannedBundles i config).filter fun e => p.loadsOrigin group e.1)

/-- Those among them that are counted when requests are limited. -/
def countedBundles (p : Plan) (i : Index) (config : Config) (group : AssetKey) : List Bundle :=
  (p.loadedBundles i config group).filter fun c => !c.isInline

theorem mem_loadedBundles {c : Bundle} :
    c ∈ p.loadedBundles i config group ↔ p.LoadsBundle i config group c := by
  unfold loadedBundles LoadsBundle
  simp only [mem_made, List.mem_filter, loadsOrigin_iff]

theorem mem_countedBundles {c : Bundle} : c ∈ p.countedBundles i config group ↔
    c ∈ p.loadedBundles i config group ∧ c.isInline = false := by
  rw [countedBundles, List.mem_filter, Bool.not_eq_true']

theorem countP_buckets (writable : p.Writable i) {key : AssetKey} {root : Root}
    (known : p.root? key = some root) :
    (((p.buckets key).entries.filter fun e => !e.2.isEmpty).map fun e =>
        (BundleOrigin.bucket key e.1, p.bucketBundle i config key root e.1 e.2)).countP
      (fun e => p.loadsOrigin group e.1 && e.2.toOption.any fun c => !c.isInline) =
    if decide (key ∈ p.members group) && !root.isInline then p.bucketCount key else 0 := by
  have each : ∀ e ∈ (p.buckets key).entries.filter fun e => !e.2.isEmpty,
      (p.bucketBundle i config key root e.1 e.2).toOption.any (fun c => !c.isInline) =
        !root.isInline := by
    intro e listed
    obtain ⟨placed, some⟩ := List.mem_filter.1 listed
    obtain ⟨b, made, _⟩ := writable.exists_bucketPlanned config known
      (KeyMap.get?_eq_some_iff.2 placed) (by simpa using some)
    obtain ⟨_, _, behavior, _⟩ := bucketBundle_ok made
    rw [made, Except.toOption, Option.any_some, isInline_of_behavior behavior]
  rw [List.countP_map, bucketCount_eq_length]
  split
  · rename_i counted
    rw [List.countP_eq_length.2]
    intro e listed
    simpa [loadsOrigin, each e listed] using counted
  · rename_i ignored
    rw [List.countP_eq_zero.2]
    intro e listed
    simpa [loadsOrigin, each e listed] using ignored

/-- The roots whose buckets are counted, among all roots and among the members of the group. -/
theorem perm_countedRoots : ((p.roots.entries.filter fun e =>
      decide (e.1 ∈ p.members group) && !e.2.isInline).map Prod.fst).Perm
    ((p.members group).toList.filter fun m => (p.root? m).any fun r => !r.isInline) := by
  have distinct : ((p.roots.entries.filter fun e =>
      decide (e.1 ∈ p.members group) && !e.2.isInline).map Prod.fst).Nodup :=
    (KeyMap.nodup_keys p.roots).sublist (List.filter_sublist.map _)
  rw [List.perm_ext_iff_of_nodup distinct ((KeySet.nodup_toList _).filter _)]
  intro m
  simp only [List.mem_map, List.mem_filter, Bool.and_eq_true, decide_eq_true_eq,
    Option.any_eq_true]
  constructor
  · rintro ⟨⟨key, r⟩, ⟨isRoot, member, several⟩, rfl⟩
    exact ⟨member, r, KeyMap.get?_eq_some_iff.2 isRoot, several⟩
  · rintro ⟨member, r, known, several⟩
    exact ⟨(m, r), ⟨KeyMap.get?_eq_some_iff.1 known, member, several⟩, rfl⟩

/-- As many bundles are counted as the limit on requests looks at. -/
theorem Writable.length_countedBundles (writable : p.Writable i) (config : Config)
    (group : AssetKey) : (p.countedBundles i config group).length = p.requestCount group := by
  unfold countedBundles loadedBundles requestCount
  rw [length_filter_made, plannedBundles]
  simp only [List.countP_append]
  congr 1
  · congr 1
    · rw [countP_flatMap_eq_total, ← total_eq_of_perm (perm_countedRoots.map p.bucketCount),
        List.map_map, ← total_map_ite]
      refine congrArg total (List.map_congr_left ?_)
      intro e listed
      exact countP_buckets writable (KeyMap.get?_eq_some_iff.2 listed)
    · rw [List.countP_map, ← List.countP_eq_length_filter]
      refine List.countP_congr ?_
      intro b live
      obtain ⟨made, isMade⟩ := exists_sharedBundle (p := p) (writable.several b live)
        (writable.shared b live) (writable.within.shared b (List.mem_of_mem_filter live)).1
      obtain ⟨_, _, behavior, _⟩ := sharedBundle_ok isMade
      simp [loadsOrigin, isMade, Except.toOption, Bundle.isInline, behavior]
  · rw [List.countP_map, KeyMap.values, List.filter_map, List.length_map,
      ← List.countP_eq_length_filter]
    refine List.countP_congr ?_
    intro e listed
    have found := KeyMap.get?_eq_some_iff.2 listed
    obtain ⟨made, isMade⟩ := exists_manualBundle (p := p) e.1 (writable.manual e.1 e.2 found)
      (writable.within.manual e.1 e.2 found).1
    obtain ⟨_, _, behavior, _⟩ := manualBundle_ok isMade
    simp [loadsOrigin, isMade, Except.toOption, Bundle.isInline, behavior]

/-! What is counted, and what is requested. -/

/-- The bundles that are counted hold what the group loads, inline buckets apart. -/
theorem Writable.counted_iff (writable : p.Writable i) (differ : i.IdsDiffer) (config : Config)
    {fileType : FileType} {assets : KeySet AssetKey} :
    (∃ c ∈ p.countedBundles i config group, c.Holds i fileType assets) ↔
      p.GroupLoads group fileType assets false := by
  simp only [mem_countedBundles, mem_loadedBundles]
  constructor
  · rintro ⟨c, ⟨loads, notInline⟩, holds⟩
    obtain ⟨otherType, otherAssets, loaded, contents⟩ := loads.groupLoads
    rw [notInline] at loaded
    rw [← holds.1, differ.idsOf_inj holds.2 contents.2, contents.1]
    exact loaded
  · intro loaded
    obtain ⟨c, loads, holds, notInline⟩ := writable.exists_loadsBundle config loaded
    exact ⟨c, ⟨loads, notInline⟩, holds⟩

/-- Bundles with one id that have been written hold the same assets. -/
theorem assetIds_of_writePlan {origin : BundleOrigin} {c first : Bundle}
    (wrote : (BundleGraph.empty.writePlan i config p).2.result = .ok ())
    (planned : (origin, .ok c) ∈ p.plannedBundles i config)
    (isFirst : p.firstBundle? i config c.id = some first) : first.assetIds = c.assetIds := by
  obtain ⟨s, filled, grouped, rfl, writes⟩ := writePlan_ok_iff.1 wrote
  obtain ⟨_, agree⟩ := addBundles_agree wellKeyed_empty
    (fun origin b listed => isDigest_of_planned listed) writes.bundles
  obtain ⟨sameId, other, otherPlanned⟩ := firstBundle?_eq_some isFirst
  obtain ⟨b, found, same⟩ := agree c (mem_made.2 ⟨origin, planned⟩)
  obtain ⟨d, foundToo, sameToo⟩ := agree first (mem_made.2 ⟨other, otherPlanned⟩)
  rw [sameId, found] at foundToo
  rw [← same, Option.some_inj.1 foundToo, sameToo]

/-- Every bundle that a group loads has the type of the first bundle to write with its id, and is
inline if that one is. -/
def FollowsFirst (p : Plan) (i : Index) (config : Config) (group : AssetKey) : Prop :=
  ∀ c ∈ p.loadedBundles i config group, ∀ first, p.firstBundle? i config c.id = some first →
    first.fileType = c.fileType ∧ first.isInline = c.isInline

section Requested

variable {root : Root} {written : BundleGraph} (writable : p.Writable i) (differ : i.IdsDiffer)
  (wrote : (BundleGraph.empty.writePlan i config p).2.result = .ok ())
  (same : (BundleGraph.empty.writePlan i config p).1 = written)
  (known : p.root? group = some root) (creates : root.triggers.createsGroup = true)

include writable differ wrote same known creates

/-- A requested bundle comes from one that the group loads, whose first namesake is not inline. -/
theorem mem_requested {b : Bundle} : b ∈ written.bundlesInGroup (p.groupId root) false ↔
    ∃ c ∈ p.loadedBundles i config group, p.gathered i config c.id = some b ∧
      ∃ first, p.firstBundle? i config c.id = some first ∧ first.isInline = false ∧
        first.SameContents b := by
  obtain ⟨mem, _⟩ := writable.listed differ wrote same known creates
  simp only [bundlesInGroup_false, List.mem_filter, Bool.not_eq_true', mem, mem_loadedBundles]
  constructor
  · rintro ⟨⟨c, loads, became⟩, notInline⟩
    obtain ⟨⟨first, isFirst, contents⟩, _⟩ := gathered_eq_some became
    exact ⟨c, loads, became, first, isFirst, contents.isInline.symm.trans notInline, contents⟩
  · rintro ⟨c, loads, became, first, isFirst, notInline, contents⟩
    exact ⟨⟨c, loads, became⟩, contents.isInline.trans notInline⟩

theorem requested_iff {fileType : FileType} {assets : KeySet AssetKey} :
    (∃ b ∈ written.bundlesInGroup (p.groupId root) false, b.Holds i fileType assets) ↔
      ∃ c ∈ p.loadedBundles i config group, ∃ first, p.firstBundle? i config c.id = some first ∧
        first.isInline = false ∧ first.Holds i fileType assets := by
  have mem (b : Bundle) := mem_requested writable differ wrote same known creates (b := b)
  constructor
  · rintro ⟨b, listed, holds⟩
    obtain ⟨c, loads, _, first, isFirst, notInline, contents⟩ := (mem b).1 listed
    exact ⟨c, loads, first, isFirst, notInline, contents.holds_iff.1 holds⟩
  · rintro ⟨c, loads, first, isFirst, notInline, holds⟩
    obtain ⟨b, became⟩ := (mem_loadedBundles.1 loads).exists_gathered
    obtain ⟨⟨other, isOther, contents⟩, _⟩ := gathered_eq_some became
    cases isFirst.symm.trans isOther
    exact ⟨b, (mem b).2 ⟨c, loads, became, first, isFirst, notInline, contents⟩,
      contents.holds_iff.2 holds⟩

/-- What is requested is what is counted, if bundles follow their first namesake. -/
theorem FollowsFirst.requested_iff_counted (follows : p.FollowsFirst i config group)
    {fileType : FileType} {assets : KeySet AssetKey} :
    (∃ b ∈ written.bundlesInGroup (p.groupId root) false, b.Holds i fileType assets) ↔
      p.GroupLoads group fileType assets false := by
  rw [requested_iff writable differ wrote same known creates, ← writable.counted_iff differ config]
  have sameContents {c first : Bundle} (loads : c ∈ p.loadedBundles i config group)
      (isFirst : p.firstBundle? i config c.id = some first) :
      first.Holds i fileType assets ↔ c.Holds i fileType assets := by
    obtain ⟨origin, planned, _⟩ := mem_loadedBundles.1 loads
    rw [Bundle.Holds, (follows c loads first isFirst).1,
      assetIds_of_writePlan wrote planned isFirst, Bundle.Holds]
  constructor
  · rintro ⟨c, loads, first, isFirst, notInline, holds⟩
    rw [(follows c loads first isFirst).2] at notInline
    exact ⟨c, mem_countedBundles.2 ⟨loads, notInline⟩, (sameContents loads isFirst).1 holds⟩
  · rintro ⟨c, counted, holds⟩
    obtain ⟨loads, notInline⟩ := mem_countedBundles.1 counted
    obtain ⟨b, became⟩ := (mem_loadedBundles.1 loads).exists_gathered
    obtain ⟨⟨first, isFirst, _⟩, _⟩ := gathered_eq_some became
    exact ⟨c, loads, first, isFirst, (follows c loads first isFirst).2.trans notInline,
      (sameContents loads isFirst).2 holds⟩

theorem FollowsFirst.length_requested_le (follows : p.FollowsFirst i config group) :
    (written.bundlesInGroup (p.groupId root) false).length ≤ p.requestCount group := by
  obtain ⟨_, nodup, _⟩ := writable.listed differ wrote same known creates
  have distinct : ((written.bundlesInGroup (p.groupId root) false).map Bundle.id).Nodup := by
    rw [bundlesInGroup_false]
    exact nodup.sublist (List.filter_sublist.map _)
  have inside : (written.bundlesInGroup (p.groupId root) false).map Bundle.id ⊆
      (p.countedBundles i config group).map Bundle.id := by
    intro id listed
    obtain ⟨b, requested, rfl⟩ := List.mem_map.1 listed
    obtain ⟨c, loads, _, first, isFirst, notInline, contents⟩ :=
      (mem_requested writable differ wrote same known creates).1 requested
    rw [(follows c loads first isFirst).2] at notInline
    exact List.mem_map.2 ⟨c, mem_countedBundles.2 ⟨loads, notInline⟩,
      (firstBundle?_eq_some isFirst).1.symm.trans contents.id.symm⟩
  have fewer := (List.subperm_of_subset distinct inside).length_le
  rw [List.length_map, List.length_map, writable.length_countedBundles] at fewer
  exact fewer

end Requested

end Plan

/-- What the group of a root requests once the plan of a target is written into an empty graph. As
many bundles are counted for the group as the limit on requests looks at, and these hold what the
group loads, inline buckets apart. Requested are the contents of those bundles that the group loads
whose first namesake is not inline. So what is requested is what is counted, and no more, where the
bundles that the group loads follow their first namesakes. -/
theorem requests_of_written_groups (g : AssetGraph) (config : Config) (entries : List Entry)
    (p : Plan) (success : ((Index.ofGraph g).planTarget config entries).result = .ok p)
    (wrote : (BundleGraph.empty.writePlan (.ofGraph g) config p).2.result = .ok ())
    (key : AssetKey) (root : Root) (known : p.root? key = some root)
    (creates : root.triggers.createsGroup = true) :
    let i := Index.ofGraph g
    let written := (BundleGraph.empty.writePlan i config p).1
    let requested := written.bundlesInGroup (p.groupId root) false
    (p.countedBundles i config key).length = p.requestCount key ∧
    (∀ fileType assets, (∃ c ∈ p.countedBundles i config key, c.Holds i fileType assets) ↔
      p.GroupLoads key fileType assets false) ∧
    (∀ fileType assets, (∃ b ∈ requested, b.Holds i fileType assets) ↔
      ∃ c ∈ p.loadedBundles i config key, ∃ first, p.firstBundle? i config c.id = some first ∧
        first.isInline = false ∧ first.Holds i fileType assets) ∧
    (p.FollowsFirst i config key →
      (∀ fileType assets, (∃ b ∈ requested, b.Holds i fileType assets) ↔
        p.GroupLoads key fileType assets false) ∧
      requested.length ≤ p.requestCount key) := by
  have writable := Plan.writable_of_planTarget success
  have differ := Index.idsDiffer_ofGraph g
  refine ⟨writable.length_countedBundles config key, fun _ _ => writable.counted_iff differ config,
    fun _ _ => Plan.requested_iff writable differ wrote rfl known creates, ?_⟩
  intro follows
  exact ⟨fun _ _ => follows.requested_iff_counted writable differ wrote rfl known creates,
    follows.length_requested_le writable differ wrote rfl known creates⟩

/-- The pages of `pagesWithStyle` have one bundle for the style sheet, which both would write in the
same way. The page `a` requests all four bundles that are counted for it. -/
theorem pagesWithStyle_requested :
    ∃ p root, ((Index.ofGraph pagesWithStyle).planTarget pagesWithStyleConfig
        pagesWithStyleEntries).result = .ok p ∧
      p.root? 0 = some root ∧ p.requestCount 0 = 4 ∧
      let i := Index.ofGraph pagesWithStyle
      let requested := (BundleGraph.empty.writePlan i pagesWithStyleConfig p).1.bundlesInGroup
        (p.groupId root) false
      requested.map Bundle.assetIds = [["lib"], ["vendor"], ["style"], ["a"]] ∧
      ∀ fileType assets, (∃ b ∈ requested, b.Holds i fileType assets) ↔
        p.GroupLoads 0 fileType assets false := by
  have returns : ((Index.ofGraph pagesWithStyle).planTarget pagesWithStyleConfig
      pagesWithStyleEntries).result.map (fun p =>
        let i := Index.ofGraph pagesWithStyle
        let written := BundleGraph.empty.writePlan i pagesWithStyleConfig p
        decide (written.2.result = .ok () ∧ p.requestCount 0 = 4 ∧
          (∀ c ∈ p.loadedBundles i pagesWithStyleConfig 0,
            ∀ first ∈ p.firstBundle? i pagesWithStyleConfig c.id,
              first.fileType = c.fileType ∧ first.isInline = c.isInline) ∧
          ((p.root? 0).map fun root => (root.triggers.createsGroup,
            (written.1.bundlesInGroup (p.groupId root) false).map Bundle.assetIds)) =
              some (true, [["lib"], ["vendor"], ["style"], ["a"]]))) = .ok true := by
    decide +kernel
  obtain ⟨p, success, same⟩ := map_eq_ok_iff.1 returns
  obtain ⟨wrote, count, follows, page⟩ := of_decide_eq_true same
  obtain ⟨root, known, page⟩ := Option.map_eq_some_iff.1 page
  obtain ⟨creates, listed⟩ := Prod.mk.inj page
  obtain ⟨_, _, _, agree⟩ := requests_of_written_groups pagesWithStyle _ _ p success wrote 0 root
    known creates
  exact ⟨p, root, success, known, count, listed, (agree follows).1⟩

/-- A page needs a style sheet, and so does a frame that is written into the page. -/
def styledFrame : AssetGraph :=
  let dependency (id : String) : AssetGraph.Node :=
    .dependency { id, specifier := id, priority := .sync }
  { nodes := [.root, .dependency { id := "entry", specifier := "index", isEntry := true },
      .asset { id := "index" }, .asset { id := "style", fileType := .css },
      dependency "index to style",
      .dependency { id := "index to frame", specifier := "frame", behavior := some .inline },
      .asset { id := "frame" }, dependency "frame to style"]
    edges := [(0, 1), (1, 2), (2, 4), (4, 3), (2, 5), (5, 6), (6, 7), (7, 3)] }

def styledFrameEntries : List Entry :=
  [⟨{ id := "entry", specifier := "index", isEntry := true }, 1, {}⟩]

/-- The style sheets of the frame and the page are one bundle, which the frame is the first to
write. So it is inline, and the page does not request it, though it is counted for the page. -/
theorem styledFrame_hides_style :
    ∃ p root, ((Index.ofGraph styledFrame).planTarget {} styledFrameEntries).result = .ok p ∧
      p.root? 1 = some root ∧ root.triggers.createsGroup = true ∧ p.requestCount 1 = 2 ∧
      let i := Index.ofGraph styledFrame
      let written := BundleGraph.empty.writePlan i {} p
      let requested := written.1.bundlesInGroup (p.groupId root) false
      written.2.result = .ok () ∧
      requested.map (fun b => (b.fileType, b.assetIds)) = [(.js, ["index"])] ∧
      p.GroupLoads 1 .css (.ofList [2]) false ∧
      ¬∃ b ∈ requested, b.Holds i .css (.ofList [2]) := by
  have returns : ((Index.ofGraph styledFrame).planTarget {} styledFrameEntries).result.map (fun p =>
        let written := BundleGraph.empty.writePlan (.ofGraph styledFrame) {} p
        decide (written.2.result = .ok () ∧ p.requestCount 1 = 2 ∧ 1 ∈ p.members 1 ∧
          (p.buckets 1).get? .css = some (.ofList [2]) ∧ (p.root? 1).any Root.isInline = false ∧
          ((p.root? 1).map fun root => (root.triggers.createsGroup,
            (written.1.bundlesInGroup (p.groupId root) false).map fun b =>
              (b.fileType, b.assetIds))) = some (true, [(.js, ["index"])]))) = .ok true := by
    decide +kernel
  obtain ⟨p, success, same⟩ := map_eq_ok_iff.1 returns
  obtain ⟨wrote, count, member, placed, notInline, page⟩ := of_decide_eq_true same
  obtain ⟨root, known, page⟩ := Option.map_eq_some_iff.1 page
  obtain ⟨creates, listed⟩ := Prod.mk.inj page
  have loaded := Plan.GroupLoads.bucket member placed rfl
  rw [notInline] at loaded
  refine ⟨p, root, success, known, creates, count, wrote, listed, loaded, ?_⟩
  rintro ⟨b, requested, holds⟩
  have pair := List.mem_map_of_mem (f := fun b : Bundle => (b.fileType, b.assetIds)) requested
  rw [listed, List.mem_singleton] at pair
  cases holds.1.symm.trans (congrArg Prod.fst pair)

end CodeSplit
