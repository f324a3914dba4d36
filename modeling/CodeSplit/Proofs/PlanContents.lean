import CodeSplit.Proofs.Consumers
import CodeSplit.Proofs.PlanGrowth
import CodeSplit.Proofs.RootWalks
import CodeSplit.Proofs.TargetPasses

/-!
Nothing enters a plan from outside. Every pass only moves about what is there: if the roots of a
plan and the assets that they reach are inside some set of keys, then so is all that the later
passes put into bundles, and all that load these bundles.
-/
namespace CodeSplit

theorem inside_insert {inside : AssetKey → Prop} {s : KeySet AssetKey} {k : AssetKey}
    (known : inside k) (rest : ∀ z ∈ s, inside z) : ∀ z ∈ s.insert k, inside z := by
  intro z member
  rcases KeySet.mem_insert.1 member with rfl | old
  · exact known
  · exact rest z old

namespace Plan

variable {p q : Plan} {inside : AssetKey → Prop} {root x : AssetKey}

/-- All keys of the plan are inside: its roots, those that reuse and are reused, and what is in each
bundle, dissolved ones included, and loads it. -/
structure Within (p : Plan) (inside : AssetKey → Prop) : Prop where
  roots : ∀ root r, p.root? root = some r → inside root
  reused : ∀ a b, p.Reuses a b → inside a ∧ inside b
  packages : ∀ root x, p.Packages root x → inside x
  shared : ∀ b ∈ p.sharedBundles, (∀ x ∈ b.assets, inside x) ∧ ∀ c ∈ b.consumers, inside c
  manual : ∀ key b, p.manualBundles.get? key = some b →
    (∀ x ∈ b.assets, inside x) ∧ ∀ c ∈ b.consumers, inside c

section Packing

theorem packages_pack_iff {fileType : FileType} {asset r : AssetKey} :
    (p.pack root fileType asset).Packages r x ↔ (root = r ∧ x = asset) ∨ p.Packages r x := by
  unfold Packages pack
  simp only [mem_bucket_place]
  constructor
  · rintro ⟨type, ⟨rfl, _, rfl⟩ | held⟩
    · exact .inl ⟨rfl, rfl⟩
    · exact .inr ⟨type, held⟩
  · rintro (⟨rfl, rfl⟩ | ⟨type, held⟩)
    · exact ⟨_, .inl ⟨rfl, rfl, rfl⟩⟩
    · exact ⟨type, .inr held⟩

theorem Within.pack (within : p.Within inside) {asset : AssetKey} (known : inside asset)
    (root : AssetKey) (fileType : FileType) : (p.pack root fileType asset).Within inside := by
  refine ⟨within.roots, within.reused, ?_, within.shared, within.manual⟩
  intro r x packed
  rcases packages_pack_iff.1 packed with ⟨_, rfl⟩ | held
  · exact known
  · exact within.packages r x held

theorem Within.foldl {α : Type} {f : Plan → α → Plan} {as : List α} (within : p.Within inside)
    (each : ∀ q, q.Within inside → ∀ a ∈ as, (f q a).Within inside) :
    (as.foldl f p).Within inside :=
  List.foldlRecOn as f within each

variable {assets : List AssetKey}

theorem Within.packAll (within : p.Within inside) (known : ∀ x ∈ assets, inside x)
    (root : AssetKey) (fileType : FileType) : (p.packAll root fileType assets).Within inside :=
  within.foldl fun _ within a listed => within.pack (known a listed) root fileType

theorem Within.packAll_each (within : p.Within inside) (known : ∀ x ∈ assets, inside x)
    (roots : List AssetKey) (fileType : FileType) :
    (roots.foldl (fun p c => p.packAll c fileType assets) p).Within inside :=
  within.foldl fun _ within c _ => within.packAll known c fileType

theorem Within.packInto (within : p.Within inside) {asset : AssetKey} (known : inside asset)
    (roots : List AssetKey) (fileType : FileType) :
    (p.packInto roots fileType asset).Within inside :=
  within.foldl fun _ within root _ => within.pack known root fileType

end Packing

section Removing

theorem Within.reuseRoot (within : p.Within inside) (listed : root ∈ p.reuseRoots) :
    inside root := by
  have member : root ∈ KeySet.ofList (p.reused.toList.flatMap fun e => [e.1, e.2]) := listed
  rw [KeySet.mem_ofList] at member
  obtain ⟨⟨a, b⟩, pair, member⟩ := List.mem_flatMap.1 member
  obtain ⟨first, second⟩ := within.reused a b pair
  simp only [List.mem_cons, List.not_mem_nil, or_false] at member
  rcases member with rfl | rfl
  · exact first
  · exact second

theorem Within.possibleConsumer (within : p.Within inside) (listed : root ∈ p.possibleConsumers) :
    inside root := by
  rcases List.mem_append.1 listed with loads | reuses
  · obtain ⟨b, member, consumer⟩ := KeySet.mem_unions_map.1 loads
    exact (within.shared b member).2 root consumer
  · exact within.reuseRoot reuses

theorem Within.possibleContent (within : p.Within inside) (listed : x ∈ p.possibleContents) :
    inside x := by
  rcases List.mem_append.1 listed with placed | shared
  · obtain ⟨buckets, placed, member⟩ := List.mem_flatMap.1 placed
    obtain ⟨assets, found, member⟩ := List.mem_flatMap.1 member
    obtain ⟨root, placed⟩ := KeyMap.mem_values_iff.1 placed
    obtain ⟨fileType, found⟩ := KeyMap.mem_values_iff.1 found
    refine within.packages root x ⟨fileType, KeyMap.mem_setAt_iff.2 ⟨assets, ?_, member⟩⟩
    rw [Plan.buckets, placed]
    exact found
  · obtain ⟨b, member, has⟩ := List.mem_flatMap.1 shared
    exact (within.shared b member).1 x has

/-- What limiting can make of a plan has no keys but those of the plan. -/
theorem Confined.within (confined : Confined p q) (within : p.Within inside) : q.Within inside := by
  refine ⟨?_, ?_, ?_, ?_, ?_⟩
  · intro root r found
    unfold root? at found
    rw [roots_eq_of_core confined.fixed] at found
    exact within.roots root r found
  · intro a b pair
    obtain ⟨first, second⟩ := confined.ties (.reuse a b) pair
    exact ⟨within.reuseRoot first, within.reuseRoot second⟩
  · intro root x packed
    obtain ⟨fileType, held⟩ := packed
    exact within.possibleContent (confined.marks (.asset root fileType x) held).2.2
  · intro b listed
    refine ⟨fun x has => within.possibleContent
      ((mem_possible_of_shared confined.fixed listed).2 x has), fun c consumer => ?_⟩
    obtain ⟨place, found⟩ := List.mem_iff_getElem?.1 listed
    exact within.possibleConsumer (confined.ties (.load place c) ⟨b, found, consumer⟩).2
  · intro key b found
    obtain ⟨old, listed, sameAssets⟩ := exists_manual_of_core confined.fixed found
    obtain ⟨assets, loaders⟩ := within.manual key old listed
    refine ⟨sameAssets ▸ assets, fun c consumer => ?_⟩
    obtain ⟨first, known, before | reuses⟩ := confined.marks (.manual key c) ⟨b, found, consumer⟩
    · exact (within.manual key first known).2 c before
    · exact within.reuseRoot reuses

/-- A removal that was found brings nothing in. -/
theorem Within.withRemoval {i : Index} {group : AssetKey} {removal : Removal}
    (within : p.Within inside) (found : p.nextRemoval? i group = .ok (some removal)) :
    (p.withRemoval removal).Within inside :=
  ((Confined.refl p).evolves (evolves_withRemoval (.refl p) found)).within within

theorem Removes.within {i : Index} {group : AssetKey} (removes : p.Removes i group q)
    (within : p.Within inside) : q.Within inside :=
  ((Confined.refl p).evolves (removes.evolves (.refl p))).within within

theorem RemovesIn.within {i : Index} {count : Nat} (run : RemovesIn i count p q)
    (within : p.Within inside) : q.Within inside :=
  run.keeps (fun _ _ _ within removes => removes.within within) within

end Removing

end Plan

/-! Placing: what is to be packaged has been reached, and looking up its asset succeeds. -/

section Placing

variable {i : Index} {config : Config} {inside reached : AssetKey → Prop}

/-- Only what was reached waits to be packaged, by roots that are inside. -/
def Waits (inside reached : AssetKey → Prop) (packing : KeyMap AssetKey (KeySet AssetKey)) : Prop :=
  ∀ x s, packing.get? x = some s → reached x ∧ ∀ m ∈ s, inside m

namespace Extraction

variable {p : Plan} {e next : Extraction}

structure Within (e : Extraction) (inside reached : AssetKey → Prop) : Prop where
  bundles : ∀ key b, e.bundles.get? key = some b →
    (∀ x ∈ b.assets, inside x) ∧ ∀ c ∈ b.consumers, inside c
  waits : Waits inside reached e.consumers

theorem Within.move (within : e.Within inside reached) {asset : AssetKey}
    {consumers moved : KeySet AssetKey} (known : inside asset) (found : reached asset)
    (roots : ∀ m ∈ consumers, inside m) (some : ∀ m ∈ moved, m ∈ consumers) (key : ManualKey) :
    (e.move key asset consumers moved).Within inside reached := by
  constructor
  · intro k b bundle
    simp only [Extraction.move, KeyMap.get?_update] at bundle
    split at bundle
    · cases bundle
      have old : (∀ x ∈ ((e.bundles.get? key).getD {}).assets, inside x) ∧
          ∀ c ∈ ((e.bundles.get? key).getD {}).consumers, inside c := by
        cases before : e.bundles.get? key with
        | none => exact ⟨fun x none => absurd none (KeySet.not_mem_empty x),
            fun c none => absurd none (KeySet.not_mem_empty c)⟩
        | some b => exact within.bundles key b before
      refine ⟨inside_insert known old.1, ?_⟩
      intro c consumer
      rcases KeySet.mem_union.1 consumer with before | now
      · exact old.2 c before
      · exact roots c (some c now)
    · exact within.bundles k b bundle
  · intro x s waiting
    simp only [Extraction.move, KeyMap.get?_insert] at waiting
    split at waiting
    · rename_i same
      cases waiting
      exact ⟨same ▸ found, fun m consumer => roots m (KeySet.mem_diff.1 consumer).1⟩
    · exact within.waits x s waiting

theorem within_extraction
    (known : ∀ x asset, i.asset x = .ok asset → reached x → inside x)
    {packing : KeyMap AssetKey (KeySet AssetKey)} (plan : p.Within inside)
    (waits : Waits inside reached packing) (success : p.extraction i config packing = .ok e) :
    e.Within inside reached := by
  refine extraction_induction (fun e => e.Within inside reached) ?_ ⟨plan.manual, waits⟩ success
  intro e rule key asset consumers partition within moves
  obtain ⟨found, roots⟩ := within.waits key consumers moves.current
  exact within.move (known key asset moves.known found) found roots
    (fun m taken => (KeySet.mem_filter.1 taken).1) _

end Extraction

theorem Plan.Within.extractManualBundles {p extracted : Plan} {e : Extraction}
    {packing : KeyMap AssetKey (KeySet AssetKey)}
    (known : ∀ x asset, i.asset x = .ok asset → reached x → inside x) (within : p.Within inside)
    (waits : Waits inside reached packing)
    (success : (p.extractManualBundles i config packing).result = .ok (extracted, e)) :
    extracted.Within inside ∧ Waits inside reached e.consumers := by
  unfold Plan.extractManualBundles at success
  obtain ⟨_, extraction, success⟩ := Report.result_bind_eq_ok.1 success
  cases success
  have moved := Extraction.within_extraction known within waits extraction
  exact ⟨⟨within.roots, within.reused, within.packages, within.shared, moved.bundles⟩, moved.waits⟩

namespace Sharing

variable {s next : Sharing}

/-- What has been set aside is inside, and so are the roots it is set aside for. -/
def SetsInside (s : Sharing) (inside : AssetKey → Prop) : Prop :=
  ∀ key assets, s.provisional.get? key = some assets →
    (∀ m ∈ key.1, inside m) ∧ ∀ x ∈ assets, inside x

structure Within (s : Sharing) (inside : AssetKey → Prop) : Prop where
  plan : s.plan.Within inside
  provisional : s.SetsInside inside

theorem SetsInside.consider {claimed : KeySet AssetKey} {entry : AssetKey × KeySet AssetKey}
    (known : ∀ asset, i.asset entry.1 = .ok asset → inside entry.1)
    (roots : ∀ m ∈ entry.2, inside m) (sets : s.SetsInside inside)
    (success : consider i config claimed s entry = .ok next) : next.SetsInside inside := by
  obtain ⟨asset, candidates, isAsset, rfl, ⟨_, rfl⟩ | ⟨_, rfl⟩⟩ := consider_cases success
  · intro key assets found
    simp only [KeyMap.get?_update] at found
    split at found
    · rename_i same
      subst same
      cases found
      refine ⟨fun m listed => roots m (List.mem_of_mem_filter listed), ?_⟩
      refine inside_insert (known asset isAsset) ?_
      intro x waiting
      obtain ⟨assets, found, member⟩ := KeyMap.mem_setAt_iff.1 waiting
      exact (sets _ assets found).2 x member
    · exact sets key assets found
  · exact sets

theorem Within.consider {claimed : KeySet AssetKey} {entry : AssetKey × KeySet AssetKey}
    (known : ∀ asset, i.asset entry.1 = .ok asset → inside entry.1)
    (roots : ∀ m ∈ entry.2, inside m) (within : s.Within inside)
    (success : consider i config claimed s entry = .ok next) : next.Within inside := by
  refine ⟨?_, within.provisional.consider known roots success⟩
  obtain ⟨asset, candidates, isAsset, rfl, ⟨_, rfl⟩ | ⟨_, rfl⟩⟩ := consider_cases success
  · exact within.plan.packInto (known asset isAsset) _ _
  · exact within.plan.packInto (known asset isAsset) _ _

end Sharing

theorem Plan.Within.settle {p q : Plan} {entry : (List AssetKey × FileType) × KeySet AssetKey}
    (within : p.Within inside) (roots : ∀ m ∈ entry.1.1, inside m)
    (assets : ∀ x ∈ entry.2, inside x)
    (success : (Sharing.settle i config p entry).result = .ok q) : q.Within inside := by
  obtain ⟨size, _, ⟨_, rfl⟩ | ⟨_, rfl⟩⟩ := Sharing.settle_cases success
  · exact within.packAll_each assets _ _
  · refine ⟨within.roots, within.reused, within.packages, ?_, within.manual⟩
    intro b listed
    rcases List.mem_append.1 listed with old | new
    · exact within.shared b old
    · cases List.mem_singleton.1 new
      exact ⟨assets, fun c consumer => roots c (KeySet.mem_ofList.1 consumer)⟩

theorem Plan.Within.shareAssets {p q : Plan} {claimed : KeySet AssetKey}
    {packing : KeyMap AssetKey (KeySet AssetKey)}
    (known : ∀ x asset, i.asset x = .ok asset → reached x → inside x) (within : p.Within inside)
    (waits : Waits inside reached packing)
    (success : (p.shareAssets i config claimed packing).result = .ok q) : q.Within inside := by
  unfold Plan.shareAssets at success
  obtain ⟨s, considered, success⟩ := Report.result_bind_eq_ok.1 success
  obtain ⟨shared, settled, success⟩ := Report.result_bind_eq_ok.1 success
  cases success
  rw [Report.result_foldlM] at settled
  have set : s.Within inside := by
    refine (foldlM_ok_induction (fun rest s => (∀ c ∈ rest, packing.get? c.1 = some c.2) ∧
      s.Within inside) ?_ ⟨fun c listed => KeyMap.get?_eq_some_iff.2 listed, within, ?_⟩
      considered).2
    · intro entry rest before after current step
      obtain ⟨listed, current⟩ := current
      obtain ⟨found, roots⟩ := waits entry.1 entry.2 (listed entry List.mem_cons_self)
      exact ⟨fun c later => listed c (List.mem_cons_of_mem _ later),
        current.consider (fun asset isAsset => known entry.1 asset isAsset found) roots step⟩
    · intro key assets none
      cases none
  refine (foldlM_ok_induction (fun rest q => (∀ c ∈ rest, s.provisional.get? c.1 = some c.2) ∧
    q.Within inside) ?_ ⟨fun c listed => KeyMap.get?_eq_some_iff.2 listed, set.plan⟩ settled).2
  intro entry rest before after current step
  obtain ⟨listed, current⟩ := current
  obtain ⟨roots, assets⟩ := set.provisional entry.1 entry.2 (listed entry List.mem_cons_self)
  exact ⟨fun c later => listed c (List.mem_cons_of_mem _ later), current.settle roots assets step⟩

end Placing

namespace Index

variable {i : Index} {config : Config} {entries : List Entry}

section Walked

variable {inside : AssetKey → Prop} {target : Target} {walked : Plan} {reach : Reach}

/-- The walks bring nothing in besides roots. -/
theorem within_of_walkedPlan (walks : (i.walkedPlan target entries).result = .ok (walked, reach))
    (roots : ∀ k root, (i.roots entries).get? k = some root → inside k) :
    walked.Within inside := by
  obtain ⟨rfl, rfl⟩ := walkedPlan_ok walks
  refine ⟨roots, ?_, ?_, ?_, ?_⟩
  · intro a b pair
    obtain ⟨root, known, asset, _, reuses⟩ := mem_reusedRoots.1 pair
    obtain ⟨other, isRoot⟩ := exists_root_of_reuse reuses
    exact ⟨roots a root known, roots b other isRoot⟩
  · rintro root x ⟨fileType, none⟩
    exact absurd none (KeySet.not_mem_empty x)
  · intro b none
    cases none
  · intro key b none
    cases none

/-- Only what a root reaches waits to be packaged. -/
theorem waits_of_consumers (walks : (i.walkedPlan target entries).result = .ok (walked, reach))
    {packing : KeyMap AssetKey (KeySet AssetKey)}
    (consumed : (walked.consumers i reach).result = .ok packing)
    (roots : ∀ k root, (i.roots entries).get? k = some root → inside k) :
    Waits inside (fun x => ∃ m, x ∈ (i.reach (i.roots entries)).reachedBy m) packing := by
  obtain ⟨rfl, rfl⟩ := walkedPlan_ok walks
  intro x s found
  refine ⟨Plan.reached_of_consumers consumed found, ?_⟩
  intro m member
  obtain ⟨_, _, _, _, packs⟩ := Plan.isPacking_of_consumers consumed
  have consumer : m ∈ packing.setAt x := KeyMap.mem_setAt_iff.2 ⟨s, found, member⟩
  obtain ⟨root, known, _⟩ := mem_reachedBy.1 ((packs x m).1 consumer).1
  exact roots m root known

end Walked

/-- Where every root is inside, and every asset that a root reaches, all that has been placed is. -/
theorem Places.within {placed : Plan} {inside : AssetKey → Prop}
    (places : i.Places config entries placed)
    (roots : ∀ k root, (i.roots entries).get? k = some root → inside k)
    (assets : ∀ x asset, i.asset x = .ok asset →
      (∃ m, x ∈ (i.reach (i.roots entries)).reachedBy m) → inside x) :
    placed.Within inside := by
  obtain ⟨target, walked, reach, packing, extracted, e, walks, consumed, moved, shared⟩ :=
    places.passes
  have waits := waits_of_consumers walks consumed roots
  obtain ⟨extracted, left⟩ :=
    (within_of_walkedPlan walks roots).extractManualBundles assets waits moved
  exact extracted.shareAssets assets left shared

/-- Placing assets changes nothing of what the walks gave. -/
theorem Places.sameShape {placed : Plan} (places : i.Places config entries placed) :
    ∃ target, Plan.SameShape (Plan.withGroups
      { target, roots := i.roots entries, edges := i.bundleEdges (i.roots entries)
        reused := i.reusedRoots (i.roots entries) }) placed := by
  obtain ⟨target, walked, reach, packing, extracted, e, walks, _, moved, shared⟩ := places.passes
  obtain ⟨rfl, rfl⟩ := walkedPlan_ok walks
  exact ⟨target, (Plan.holds_of_consumer moved shared).1⟩

theorem roots_of_planTarget {p : Plan} (success : (i.planTarget config entries).result = .ok p) :
    p.roots = i.roots entries := by
  obtain ⟨placed, places, limited⟩ := places_of_planTarget success
  obtain ⟨_, shape⟩ := places.sameShape
  exact (Plan.roots_limitRequests limited).trans shape.roots

end Index

end CodeSplit
