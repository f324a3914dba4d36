import CodeSplit.Proofs.Consumers

/-!
Whom a root relies on for an asset. Only the roots that reach the asset matter: a root can leave it
out if on every way to it a group was loaded that has one of them as a member, or if one of them is
loaded along or through reuse. From this follows what hiding the reach of one root changes. Whatever
an inline and isolated root reaches counts as loaded in the groups that it is written into, and
others leave it out.
-/
namespace CodeSplit

namespace GroupGraph

variable {g : GroupGraph} {loads : AssetKey → Prop} {outside n x : AssetKey}

/-- Some way into the circle of the group passes no circle with a group of the given kind. -/
inductive Misses (g : GroupGraph) (loads : AssetKey → Prop) : AssetKey → Prop
  | start {n : AssetKey} : (∀ outside, ¬g.LeadsInto outside n) → Misses g loads n
  | into {outside n : AssetKey} : g.LeadsInto outside n →
      (∀ other, g.SameCircle other outside → ¬loads other) → Misses g loads outside →
      Misses g loads n

/-- An asset is available to a group exactly if every way to it passes a circle that loads it. -/
theorem WellFormed.mem_availability_iff (wellFormed : g.WellFormed)
    {available : KeyMap AssetKey (KeySet AssetKey)}
    (success : g.availability.result = .ok available) :
    x ∈ available.setAt n ↔ ¬g.Misses (fun m => x ∈ g.loadedBy m) n := by
  have offered := fun n => wellFormed.mem_availability success n x
  constructor
  · intro has misses
    induction misses with
    | start none =>
      obtain ⟨⟨outside, leads⟩, _⟩ := (offered _).1 has
      exact none outside leads
    | @into outside n leads unloaded _ ih =>
      rcases ((offered n).1 has).2 outside leads with known | ⟨other, circle, loads⟩
      · exact ih known
      · exact unloaded other circle loads
  · intro reached
    -- by induction on the number of groups that can come before
    generalize size : (g.ancestors n).size = count
    induction count using Nat.strongRecOn generalizing n with
    | ind count ih =>
      subst size
      refine (offered n).2 ⟨?_, ?_⟩
      · by_contra none
        exact reached (.start fun outside leads => none ⟨outside, leads⟩)
      · intro outside leads
        by_cases loads : g.CircleLoads outside x
        · exact .inr loads
        · refine .inl (ih _ (wellFormed.size_ancestors_lt leads) ?_ rfl)
          intro misses
          exact reached (.into leads (fun other circle held => loads ⟨other, circle, held⟩) misses)

end GroupGraph

namespace Plan

variable {p : Plan} {reach : Reach} {graph : GroupGraph} {holders fewer : AssetKey → Prop}
  {key x : AssetKey} {root : Root}

/-- The groups of a plan and which of them can load which. -/
def groupLinks (p : Plan) : GroupGraph where
  groups := p.groupRoots
  parents := KeyMap.ofList (p.groupRoots.map fun n => (n, p.parentGroups p.groupRoots n))

/-- Some of the given roots is loaded in the group. -/
def LoadsAny (p : Plan) (holders : AssetKey → Prop) (group : AssetKey) : Prop :=
  ∃ r ∈ p.roots.keys, p.LoadsIn group r ∧ holders r

/-- Wherever the root belongs to a group, some of the given roots has been loaded before. -/
def HeldBefore (p : Plan) (holders : AssetKey → Prop) (key : AssetKey) : Prop :=
  (∃ group, group ∈ p.groupsOf key) ∧
    ∀ group ∈ p.groupsOf key, ¬p.groupLinks.Misses (p.LoadsAny holders) group

/-- Some of the given roots has been loaded when the root is: before the group that it has, or
before each root that it is loaded along with, unless that is one of them. -/
def HeldAlong (p : Plan) (holders : AssetKey → Prop) (key : AssetKey) (root : Root) : Prop :=
  if root.triggers.createsGroup = true then p.HeldBefore holders key
  else (∃ e ∈ p.edges, e.target = key ∧ e.triggers.createsGroup = false) ∧
    ∀ e ∈ p.edges, e.target = key → e.triggers.createsGroup = false →
      p.HeldBefore holders e.source ∨ holders e.source

/-- The root can do without an asset that is not its own and that the given roots have: it does not
start from nothing, and some of them is loaded wherever the root is, or through reuse. -/
def CanOmit (p : Plan) (holders : AssetKey → Prop) (key x : AssetKey) : Prop :=
  key ≠ x ∧ ∃ root, p.root? key = some root ∧
    root.triggers.startsEmpty = false ∧ root.isSingleFile = false ∧
    ((p.HeldAlong holders key root ∧ ∀ reuser ∈ p.reusersClosure key, p.HeldBefore holders reuser) ∨
      ∃ reused ∈ p.reusedClosure key, holders reused)

section Availability

variable (built : p.groupGraph reach = .ok graph) {available : KeyMap AssetKey (KeySet AssetKey)}
  (computed : graph.availability.result = .ok available)

include built computed

theorem mem_setAt_iff_not_misses {group : AssetKey} :
    x ∈ available.setAt group ↔
      ¬p.groupLinks.Misses (p.LoadsAny fun r => x ∈ reach.reachedBy r) group := by
  have wellFormed := wellFormed_groupGraph built
  rw [wellFormed.mem_availability_iff computed, not_iff_not]
  have links : graph.LeadsInto = p.groupLinks.LeadsInto := by
    rw [groupGraph_eq built]
    rfl
  have circles : graph.SameCircle = p.groupLinks.SameCircle := by
    rw [groupGraph_eq built]
    rfl
  have loads {outside other group : AssetKey} (leads : graph.LeadsInto outside group)
      (circle : graph.SameCircle other outside) : x ∈ graph.loadedBy other ↔
        p.LoadsAny (fun r => x ∈ reach.reachedBy r) other := by
    obtain ⟨_, _, _, into⟩ := leads
    have listed := wellFormed.sameCircle_inside circle (wellFormed.inside into).1
    rw [groups_groupGraph built] at listed
    exact mem_loadedBy_groupGraph built listed
  constructor
  · intro misses
    induction misses with
    | start none =>
      rw [links] at none
      exact .start none
    | into leads unloaded _ ih =>
      refine .into (links ▸ leads) (fun other circle any => ?_) ih
      exact unloaded other (circles ▸ circle) ((loads leads (circles ▸ circle)).2 any)
  · intro misses
    induction misses with
    | start none =>
      rw [← links] at none
      exact .start none
    | into leads unloaded _ ih =>
      rw [← links] at leads
      refine .into leads (fun other circle held => ?_) ih
      exact unloaded other (circles ▸ circle) ((loads leads circle).1 held)

theorem mem_availableInGroups_iff :
    x ∈ p.availableInGroups available key ↔
      p.HeldBefore (fun r => x ∈ reach.reachedBy r) key := by
  simp only [mem_availableInGroups, HeldBefore, mem_setAt_iff_not_misses built computed]

theorem mem_baseAvailability_iff :
    x ∈ p.baseAvailability reach available key root ↔
      p.HeldAlong (fun r => x ∈ reach.reachedBy r) key root := by
  unfold HeldAlong
  split
  · rename_i creates
    rw [mem_baseAvailability_of_createsGroup creates, mem_availableInGroups_iff built computed]
  · rename_i joint
    rw [mem_baseAvailability_of_not_createsGroup (Bool.eq_false_iff.2 joint)]
    simp only [mem_availableInGroups_iff built computed]

/-- What a root relies on is determined by the roots that reach the asset. -/
theorem reliesOn_iff_canOmit :
    p.ReliesOn reach available key x ↔ p.CanOmit (fun r => x ∈ reach.reachedBy r) key x := by
  simp only [ReliesOn, CanOmit, mem_rootAvailability, mem_baseAvailability_iff built computed,
    mem_availableInGroups_iff built computed]

end Availability

section Fewer

variable (fewerHold : ∀ r, fewer r → holders r)

include fewerHold

theorem HeldBefore.mono (held : p.HeldBefore fewer key) : p.HeldBefore holders key := by
  refine ⟨held.1, fun group member misses => held.2 group member ?_⟩
  clear member
  induction misses with
  | start none => exact .start none
  | into leads unloaded _ ih =>
    refine .into leads (fun other circle any => ?_) ih
    obtain ⟨r, isRoot, loads, holds⟩ := any
    exact unloaded other circle ⟨r, isRoot, loads, fewerHold r holds⟩

theorem HeldAlong.mono (held : p.HeldAlong fewer key root) : p.HeldAlong holders key root := by
  unfold HeldAlong at held ⊢
  split
  · rename_i creates
    rw [if_pos creates] at held
    exact held.mono fewerHold
  · rename_i joint
    rw [if_neg joint] at held
    refine ⟨held.1, fun e listed target joint => ?_⟩
    rcases held.2 e listed target joint with before | holds
    · exact .inl (before.mono fewerHold)
    · exact .inr (fewerHold _ holds)

/-- The more roots have an asset, the more can do without it. -/
theorem CanOmit.mono (omits : p.CanOmit fewer key x) : p.CanOmit holders key x := by
  obtain ⟨foreign, root, known, relies, several, either⟩ := omits
  refine ⟨foreign, root, known, relies, several, ?_⟩
  rcases either with ⟨along, before⟩ | ⟨reused, chain, holds⟩
  · exact .inl ⟨along.mono fewerHold, fun reuser chain => (before reuser chain).mono fewerHold⟩
  · exact .inr ⟨reused, chain, fewerHold reused holds⟩

end Fewer

/-- Who packages an asset depends on who reaches it, and on nothing else of the reach. -/
theorem mem_consumers_iff {i : Index} {packing : KeyMap AssetKey (KeySet AssetKey)}
    (success : (p.consumers i reach).result = .ok packing) {r : AssetKey} :
    r ∈ packing.setAt x ↔ x ∈ reach.reachedBy r ∧
      (¬p.CanOmit (fun k => x ∈ reach.reachedBy k) r x ∨
        ∀ k, x ∈ reach.reachedBy k → p.CanOmit (fun k => x ∈ reach.reachedBy k) k x) := by
  obtain ⟨graph, available, built, computed, packs⟩ := isPacking_of_consumers success
  rw [packs x r]
  simp only [reliesOn_iff_canOmit built computed]

theorem mapM_availabilityDecision {i : Index} (entries : List (AssetKey × KeySet AssetKey))
    {fault : Fault} : entries.mapM (availabilityDecision i) = .error fault ↔
      (entries.map Prod.fst).mapM i.idOf = .error fault := by
  induction entries with
  | nil => simp [pure, Except.pure]
  | cons e rest ih =>
    rw [List.map_cons, List.mapM_cons, List.mapM_cons]
    simp only [availabilityDecision, bind_eq_error_iff]
    cases i.idOf e.1 with
    | error other => simp [bind, Except.bind]
    | ok id => simp [bind, Except.bind, pure, Except.pure, ih]

theorem groupGraph_eq_error {other : Reach} {fault : Fault}
    (failed : p.groupGraph reach = .error fault) : p.groupGraph other = .error fault := by
  unfold groupGraph at failed ⊢
  simp only [] at failed ⊢
  split at failed
  · rename_i unplaced
    rwa [if_pos unplaced]
  · cases failed

/-- Once the groups are known, the consumers can be computed if every root has an id. -/
theorem consumers_eq_error_iff (built : p.groupGraph reach = .ok graph) {i : Index}
    {fault : Fault} :
    (p.consumers i reach).result = .error fault ↔ p.roots.keys.mapM i.idOf = .error fault := by
  obtain ⟨available, computed⟩ := (wellFormed_groupGraph built).exists_availability
  have noted : (p.roots.map (p.rootAvailability reach available)).entries.mapM
      (availabilityDecision i) = .error fault ↔ p.roots.keys.mapM i.idOf = .error fault := by
    rw [mapM_availabilityDecision, ← KeyMap.keys, KeyMap.keys_map]
  rw [← noted]
  unfold consumers
  simp only [Report.result_bind_eq_error, Report.result_ofExcept, built, computed,
    Except.ok.injEq, exists_eq_left', reduceCtorEq, false_or]
  simp

/-- Whether the consumers can be computed does not depend on what the roots reach. -/
theorem consumers_eq_error {i : Index} {other : Reach} {fault : Fault}
    (failed : (p.consumers i reach).result = .error fault) :
    (p.consumers i other).result = .error fault := by
  cases built : p.groupGraph reach with
  | error early =>
    have stops {r : Reach} (unbuilt : p.groupGraph r = .error early) :
        (p.consumers i r).result = .error early := by
      unfold consumers
      exact Report.result_bind_eq_error.2 (.inl unbuilt)
    rw [stops built] at failed
    rw [stops (groupGraph_eq_error built), failed]
  | ok graph =>
    obtain ⟨graph', built'⟩ : ∃ graph', p.groupGraph other = .ok graph' := by
      cases found : p.groupGraph other with
      | ok graph' => exact ⟨graph', rfl⟩
      | error fault =>
        rw [groupGraph_eq_error found] at built
        cases built
    rw [consumers_eq_error_iff built']
    rwa [consumers_eq_error_iff built] at failed

end Plan

/-- The reach without what a root reaches besides its own asset. -/
def Reach.hide (reach : Reach) (hidden : AssetKey) : Reach :=
  .ofList <| reach.byRoot.entries.flatMap fun (root, assets) =>
    (assets.toList.filter fun x => root = hidden → x = hidden).map fun x => (root, x)

theorem Reach.mem_hide {reach : Reach} {hidden r x : AssetKey} :
    x ∈ (reach.hide hidden).reachedBy r ↔
      x ∈ reach.reachedBy r ∧ (r = hidden → x = hidden) := by
  have reached : x ∈ reach.reachedBy r ↔
      ∃ assets, (r, assets) ∈ reach.byRoot.entries ∧ x ∈ assets := by
    simp only [reachedBy, KeyMap.mem_setAt_iff, KeyMap.get?_eq_some_iff]
  unfold hide
  simp only [mem_reachedBy_ofList, List.mem_flatMap, List.mem_map, List.mem_filter,
    decide_eq_true_eq, Prod.mk.injEq, reached]
  constructor
  · intro listed
    obtain ⟨⟨_, assets⟩, entry, _, ⟨member, kept⟩, rfl, rfl⟩ := listed
    exact ⟨⟨assets, entry, member⟩, kept⟩
  · rintro ⟨⟨assets, entry, member⟩, kept⟩
    exact ⟨(r, assets), entry, x, ⟨member, kept⟩, rfl, rfl⟩

namespace Plan

/-- What others leave out because of an isolated root, inline or not. Without its reach every other
root packages what it did before. Besides, a root packages exactly those assets reached by the
isolated root that it could omit, and that it cannot omit if the isolated root does not count, or
that every root which has it could omit then. -/
theorem consumers_without_isolated (p : Plan) (i : Index) (reach : Reach) (hidden : AssetKey)
    (root : Root) (known : p.root? hidden = some root) (isolated : root.triggers.isolated = true) :
    (∀ fault, (p.consumers i reach).result = .error fault ↔
      (p.consumers i (reach.hide hidden)).result = .error fault) ∧
    ∀ packing packing', (p.consumers i reach).result = .ok packing →
      (p.consumers i (reach.hide hidden)).result = .ok packing' → ∀ r x, r ≠ hidden →
        (r ∈ packing.setAt x → r ∈ packing'.setAt x) ∧
        (r ∈ packing'.setAt x ∧ r ∉ packing.setAt x ↔
          x ≠ hidden ∧ x ∈ reach.reachedBy hidden ∧ x ∈ reach.reachedBy r ∧
            p.CanOmit (fun k => x ∈ reach.reachedBy k) r x ∧
            (¬p.CanOmit (fun k => k ≠ hidden ∧ x ∈ reach.reachedBy k) r x ∨
              ∀ k ≠ hidden, x ∈ reach.reachedBy k →
                p.CanOmit (fun k => k ≠ hidden ∧ x ∈ reach.reachedBy k) k x)) := by
  refine ⟨fun fault => ⟨consumers_eq_error, consumers_eq_error⟩, ?_⟩
  intro packing packing' success success' r x other
  rw [mem_consumers_iff success, mem_consumers_iff success']
  simp only [Reach.mem_hide]
  by_cases offers : x ≠ hidden ∧ x ∈ reach.reachedBy hidden
  · -- the isolated root keeps the asset, so that others leave it out without a further condition
    have keeps : ¬p.CanOmit (fun k => x ∈ reach.reachedBy k) hidden x := by
      rintro ⟨_, same, known', relies, _⟩
      cases known.symm.trans known'
      simp [Triggers.startsEmpty, isolated] at relies
    have notAll : ¬∀ k, x ∈ reach.reachedBy k → p.CanOmit (fun k => x ∈ reach.reachedBy k) k x :=
      fun all => keeps (all hidden offers.2)
    have fewer : p.CanOmit (fun k => k ≠ hidden ∧ x ∈ reach.reachedBy k) r x →
        p.CanOmit (fun k => x ∈ reach.reachedBy k) r x :=
      CanOmit.mono fun k holds => holds.2
    have others (k : AssetKey) : (x ∈ reach.reachedBy k ∧ (k = hidden → x = hidden)) ↔
        k ≠ hidden ∧ x ∈ reach.reachedBy k := by
      simp only [offers.1, imp_false, and_comm, ne_eq]
    simp only [others, notAll, or_false, and_imp]
    tauto
  · have same (k : AssetKey) : (x ∈ reach.reachedBy k ∧ (k = hidden → x = hidden)) ↔
        x ∈ reach.reachedBy k := by
      refine and_iff_left_of_imp ?_
      rintro reaches rfl
      by_contra foreign
      exact offers ⟨foreign, reaches⟩
    simp only [same]
    tauto

/-- An entry `1` with a frame `0` that is written into it and shares nothing with it, and a page `2`
that needs the library `3`, as the frame does. -/
def frameBesidePage : Plan :=
  let frame : Triggers := { isolated := true, inline := true }
  Plan.withGroups
    { roots := .ofList [(0, { assetId := "frame", triggers := frame }),
        (1, { assetId := "index", triggers := { entry := true } }),
        (2, { assetId := "page", triggers := { lazy := true } })]
      edges := [⟨1, 0, 1, "", frame⟩, ⟨1, 2, 1, "", { lazy := true }⟩] }

def frameBesidePageReach : Reach := .ofList [(0, 0), (0, 3), (1, 1), (2, 2), (2, 3)]

def frameBesidePageIndex : Index :=
  ⟨["frame", "index", "page", "library"].map fun id => ⟨{ id := id }, "", []⟩⟩

def frameBesidePagePacking : KeyMap AssetKey (KeySet AssetKey) :=
  .ofList [(0, .ofList [0]), (1, .ofList [1]), (2, .ofList [2]), (3, .ofList [0])]

def frameHiddenPacking : KeyMap AssetKey (KeySet AssetKey) :=
  .ofList [(0, .ofList [0]), (1, .ofList [1]), (2, .ofList [2]), (3, .ofList [2])]

theorem frameBesidePage_omits :
    (frameBesidePage.consumers frameBesidePageIndex frameBesidePageReach).result =
      .ok frameBesidePagePacking ∧
    (frameBesidePage.consumers frameBesidePageIndex (frameBesidePageReach.hide 0)).result =
      .ok frameHiddenPacking ∧
    2 ∈ frameHiddenPacking.setAt 3 ∧ 2 ∉ frameBesidePagePacking.setAt 3 ∧
    frameBesidePage.CanOmit (fun k => 3 ∈ frameBesidePageReach.reachedBy k) 2 3 := by
  obtain ⟨_, each⟩ := consumers_without_isolated frameBesidePage frameBesidePageIndex
    frameBesidePageReach 0
    { assetId := "frame", triggers := { isolated := true, inline := true } } rfl rfl
  obtain ⟨_, changes⟩ := each frameBesidePagePacking frameHiddenPacking rfl rfl 2 3 (by decide)
  have changed : 2 ∈ frameHiddenPacking.setAt 3 ∧ 2 ∉ frameBesidePagePacking.setAt 3 := by decide
  obtain ⟨_, _, _, omits, _⟩ := changes.1 changed
  exact ⟨rfl, rfl, changed.1, changed.2, omits⟩

/-- Since the frame has the library, the page goes without it. -/
theorem frameBesidePage_relies_on_frame :
    ¬∀ (p : Plan) (i : Index) (reach : Reach) (hidden : AssetKey) (root : Root)
        (packing packing' : KeyMap AssetKey (KeySet AssetKey)),
      p.root? hidden = some root → root.isInline = true → root.triggers.isolated = true →
      (p.consumers i reach).result = .ok packing →
      (p.consumers i (reach.hide hidden)).result = .ok packing' →
        ∀ r x, r ≠ hidden → (r ∈ packing.setAt x ↔ r ∈ packing'.setAt x) := by
  intro unchanged
  have same := unchanged frameBesidePage frameBesidePageIndex frameBesidePageReach 0
    { assetId := "frame", triggers := { isolated := true, inline := true } }
    frameBesidePagePacking frameHiddenPacking rfl rfl rfl rfl rfl 2 3 (by decide)
  revert same
  decide

end Plan

end CodeSplit
