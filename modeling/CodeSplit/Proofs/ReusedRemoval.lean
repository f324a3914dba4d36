import CodeSplit.Proofs.ParentGroups
import CodeSplit.Proofs.SharedRemoval

/-!
Removing a reused root. The roots that reused it take over its code: what it holds, the roots that
it reuses and the edges that lead on from it. A group then holds what it held, and can load no group
that it could not load before.
-/
namespace CodeSplit.Plan

open Relation (ReflTransGen)

variable {p q : Plan} {reused reuser root x : AssetKey}

/-- Adding edges one by one. -/
theorem foldl_addEdge (rewrite : BundleEdge → BundleEdge) (es : List BundleEdge) (p : Plan) :
    es.foldl (fun p e => p.addEdge (rewrite e)) p =
      { p with edges := (es.foldl (fun p e => p.addEdge (rewrite e)) p).edges } ∧
    ∀ e, e ∈ (es.foldl (fun p e => p.addEdge (rewrite e)) p).edges ↔
      e ∈ p.edges ∨ ∃ old ∈ es, e = rewrite old := by
  induction es generalizing p with
  | nil => simp
  | cons first es ih =>
    have frame : p.addEdge (rewrite first) =
        { p with edges := (p.addEdge (rewrite first)).edges } := by
      unfold addEdge
      split
      · rfl
      · rfl
    have added (e : BundleEdge) : e ∈ (p.addEdge (rewrite first)).edges ↔
        e ∈ p.edges ∨ e = rewrite first := by
      unfold addEdge
      split
      · rename_i known
        constructor
        · exact .inl
        · intro member
          rcases member with old | rfl
          · exact old
          · exact known
      · simp
    obtain ⟨rest, members⟩ := ih (p.addEdge (rewrite first))
    rw [List.foldl_cons]
    constructor
    · rw [rest, frame]
    · intro e
      rw [members, added, List.exists_mem_cons_iff, or_assoc]

/-- Every root keeps what it has, each bundle being of the same kind. -/
structure Keeps (p q : Plan) : Prop where
  packages : ∀ root x, p.Packages root x → q.Packages root x
  shares : ∀ root x, p.Shares root x → q.Shares root x
  manual : ∀ root x, p.TakesManually root x → q.TakesManually root x

theorem Keeps.refl (p : Plan) : Keeps p p := ⟨fun _ _ h => h, fun _ _ h => h, fun _ _ h => h⟩

theorem Keeps.trans {r : Plan} (first : Keeps p q) (second : Keeps q r) : Keeps p r where
  packages root x held := second.packages root x (first.packages root x held)
  shares root x held := second.shares root x (first.shares root x held)
  manual root x held := second.manual root x (first.manual root x held)

theorem Keeps.holds (keeps : Keeps p q) (held : p.Holds root x) : q.Holds root x := by
  rcases held with packed | shared | manual
  · exact .inl (keeps.packages root x packed)
  · exact .inr (.inl (keeps.shares root x shared))
  · exact .inr (.inr (keeps.manual root x manual))

/-- What copying the code of `reused` into `reuser` does. -/
structure Copies (p : Plan) (reused : AssetKey) (buckets : Buckets) (nested : List AssetKey)
    (outgoing : List BundleEdge) (reuser : AssetKey) (q : Plan) : Prop where
  roots : q.roots = p.roots
  reuses : ∀ a b, q.Reuses a b ↔
    (p.Reuses a b ∧ ¬(a = reuser ∧ b = reused)) ∨ (a = reuser ∧ b ∈ nested ∧ b ≠ reuser)
  edges : ∀ e, e ∈ q.edges ↔ e ∈ p.edges ∨
    ∃ old ∈ outgoing, old.target ≠ reuser ∧ e = { old with source := reuser }
  keeps : Keeps p q
  takesBuckets : ∀ fileType assets, buckets.get? fileType = some assets →
    ∀ x ∈ assets, q.Packages reuser x
  takesShared : ∀ x, p.Shares reused x → q.Holds reuser x
  takesManual : ∀ x, p.TakesManually reused x → q.TakesManually reuser x

/-- The reuse pairs after copying. -/
theorem mem_pairs_copyReused {nested : List AssetKey} {a b : AssetKey} :
    (a, b) ∈ ((nested.filter fun n => n ≠ reuser).map fun n => (reuser, n)).foldl KeySet.insert
        (p.reused.erase (reuser, reused)) ↔
      (p.Reuses a b ∧ ¬(a = reuser ∧ b = reused)) ∨ (a = reuser ∧ b ∈ nested ∧ b ≠ reuser) := by
  rw [KeySet.mem_foldl_insert, KeySet.mem_erase]
  simp only [List.mem_map, List.mem_filter, decide_eq_true_eq, Prod.mk.injEq, ne_eq, Reuses]
  apply or_congr Iff.rfl
  constructor
  · intro found
    obtain ⟨n, ⟨member, other⟩, rfl, rfl⟩ := found
    exact ⟨rfl, member, other⟩
  · intro found
    obtain ⟨rfl, member, other⟩ := found
    exact ⟨b, ⟨member, other⟩, rfl, rfl⟩

/-- The manual bundles after copying: the reuser joins those of the reused root. -/
theorem takesManually_copyReused {manual : KeyMap ManualKey ManualBundle}
    (same : q.manualBundles = manual.map fun _ b =>
      if reused ∈ b.consumers then { b with consumers := b.consumers.insert reuser } else b)
    {key : ManualKey} {b : ManualBundle} (found : manual.get? key = some b) (has : x ∈ b.assets)
    (consumer : root ∈ b.consumers) :
    q.TakesManually root x ∧ (root = reused → q.TakesManually reuser x) := by
  unfold TakesManually
  simp only [same, KeyMap.get?_map]
  by_cases joins : reused ∈ b.consumers
  · have entry : (manual.get? key).map (fun b =>
        if reused ∈ b.consumers then { b with consumers := b.consumers.insert reuser } else b) =
          some { b with consumers := b.consumers.insert reuser } := by
      simp [found, joins]
    exact ⟨⟨key, _, entry, has, KeySet.mem_insert.2 (.inr consumer)⟩,
      fun _ => ⟨key, _, entry, has, KeySet.mem_insert.2 (.inl rfl)⟩⟩
  · have entry : (manual.get? key).map (fun b =>
        if reused ∈ b.consumers then { b with consumers := b.consumers.insert reuser } else b) =
          some b := by
      simp [found, joins]
    refine ⟨⟨key, b, entry, has, consumer⟩, ?_⟩
    rintro rfl
    exact absurd consumer joins

/-- The plan in the midst of copying: all is rewired, and shared bundles are still to be taken. -/
def rewired (p : Plan) (reused : AssetKey) (buckets : Buckets) (nested : List AssetKey)
    (outgoing : List BundleEdge) (reuser : AssetKey) : Plan :=
  let packed := buckets.entries.foldl
    (fun p (fileType, assets) => p.packAll reuser fileType assets.toList) p
  let linked := (outgoing.filter fun e => e.target ≠ reuser).foldl
    (fun p e => p.addEdge { e with source := reuser }) packed
  { linked with
    reused := ((nested.filter fun n => n ≠ reuser).map fun n => (reuser, n)).foldl KeySet.insert
      (p.reused.erase (reuser, reused))
    manualBundles := p.manualBundles.map fun _ b =>
      if reused ∈ b.consumers then { b with consumers := b.consumers.insert reuser } else b }

theorem copyReused_eq (p : Plan) (reused : AssetKey) (buckets : Buckets) (nested : List AssetKey)
    (outgoing : List BundleEdge) (reuser : AssetKey) :
    p.copyReused reused buckets nested outgoing reuser =
      if (p.root? reuser).any Root.isEntryLike then
        (p.liveSharedBundles.filter fun b => reused ∈ b.consumers).foldl
          (fun p b => p.packAll reuser b.fileType b.assets.toList)
          (p.rewired reused buckets nested outgoing reuser)
      else
        { p.rewired reused buckets nested outgoing reuser with
          sharedBundles := p.sharedBundles.map fun b =>
            if b.alive ∧ reused ∈ b.consumers then { b with consumers := b.consumers.insert reuser }
            else b } := rfl

theorem packages_congr (same : q.placements = p.placements) :
    q.Packages root x ↔ p.Packages root x := by
  unfold Packages bucket buckets
  rw [same]

/-- What rewiring does, shared bundles apart. -/
structure Rewires (p : Plan) (buckets : Buckets) (outgoing : List BundleEdge) (reuser : AssetKey)
    (q : Plan) : Prop where
  roots : q.roots = p.roots
  sharedBundles : q.sharedBundles = p.sharedBundles
  edges : ∀ e, e ∈ q.edges ↔ e ∈ p.edges ∨
    ∃ old ∈ outgoing, old.target ≠ reuser ∧ e = { old with source := reuser }
  packages : ∀ root x, p.Packages root x → q.Packages root x
  takesBuckets : ∀ fileType assets, buckets.get? fileType = some assets →
    ∀ x ∈ assets, q.Packages reuser x

/-- The buckets after rewiring are those with the buckets of the reused root copied. -/
theorem placements_rewired (p : Plan) (reused : AssetKey) (buckets : Buckets)
    (nested : List AssetKey) (outgoing : List BundleEdge) (reuser : AssetKey) :
    (p.rewired reused buckets nested outgoing reuser).placements =
      (buckets.entries.foldl
        (fun p entry => p.packAll reuser entry.1 entry.2.toList) p).placements := by
  obtain ⟨frame, _⟩ := foldl_addEdge (fun e => { e with source := reuser })
    (outgoing.filter fun e => e.target ≠ reuser)
    (buckets.entries.foldl (fun p entry => p.packAll reuser entry.1 entry.2.toList) p)
  have linked := congrArg Plan.placements frame
  exact linked

theorem rewires_rewired (p : Plan) (reused : AssetKey) (buckets : Buckets) (nested : List AssetKey)
    (outgoing : List BundleEdge) (reuser : AssetKey) :
    Rewires p buckets outgoing reuser (p.rewired reused buckets nested outgoing reuser) := by
  have each (p : Plan) (entry : FileType × KeySet AssetKey) :
      Packs p (p.packAll reuser entry.1 entry.2.toList) :=
    packs_packAll p reuser entry.1 entry.2.toList
  let packed := buckets.entries.foldl
    (fun p (fileType, assets) => p.packAll reuser fileType assets.toList) p
  have packs : Packs p packed := .foldl each buckets.entries p
  obtain ⟨frame, members⟩ := foldl_addEdge (fun e => { e with source := reuser })
    (outgoing.filter fun e => e.target ≠ reuser) packed
  have placements := placements_rewired p reused buckets nested outgoing reuser
  refine ⟨(congrArg Plan.roots frame).trans packs.roots,
    (congrArg Plan.sharedBundles frame).trans packs.sharedBundles, ?_, ?_, ?_⟩
  · intro e
    refine (members e).trans ?_
    rw [packs.edges]
    simp only [List.mem_filter, decide_eq_true_eq, and_assoc]
  · intro root x held
    exact (packages_congr placements).2 (packs.packages held)
  · intro fileType assets found x member
    obtain ⟨q, _, after⟩ := Packs.foldl_at each (KeyMap.get?_eq_some_iff.1 found) p
    exact (packages_congr placements).2
      (after.packages (packages_packAll q reuser fileType member))

/-- The shared bundles after a root has joined those of the reused root. -/
theorem exists_joined {bundles : List SharedBundle} {b : SharedBundle}
    (live : b ∈ bundles.filter SharedBundle.alive) :
    ∃ c ∈ (bundles.map fun b =>
        if b.alive ∧ reused ∈ b.consumers then { b with consumers := b.consumers.insert reuser }
        else b).filter SharedBundle.alive,
      c.assets = b.assets ∧ (∀ root ∈ b.consumers, root ∈ c.consumers) ∧
        (reused ∈ b.consumers → reuser ∈ c.consumers) := by
  obtain ⟨listed, alive⟩ := List.mem_filter.1 live
  by_cases joins : reused ∈ b.consumers
  · refine ⟨{ b with consumers := b.consumers.insert reuser }, List.mem_filter.2 ⟨?_, alive⟩,
      rfl, ?_, ?_⟩
    · exact List.mem_map.2 ⟨b, listed, if_pos ⟨alive, joins⟩⟩
    · intro root consumer
      exact KeySet.mem_insert.2 (.inr consumer)
    · intro _
      exact KeySet.mem_insert.2 (.inl rfl)
  · refine ⟨b, List.mem_filter.2 ⟨?_, alive⟩, rfl, fun root consumer => consumer, ?_⟩
    · exact List.mem_map.2 ⟨b, listed, if_neg fun both => joins both.2⟩
    · intro consumer
      exact absurd consumer joins

section Copying

variable (p : Plan) (reused : AssetKey) (buckets : Buckets) (nested : List AssetKey)
  (outgoing : List BundleEdge) (reuser : AssetKey)

/-- A reuser that loads no shared bundles takes over their assets. -/
theorem copies_packing :
    Copies p reused buckets nested outgoing reuser
      ((p.liveSharedBundles.filter fun b => reused ∈ b.consumers).foldl
        (fun p b => p.packAll reuser b.fileType b.assets.toList)
        (p.rewired reused buckets nested outgoing reuser)) := by
  have rewires := rewires_rewired p reused buckets nested outgoing reuser
  have each (p : Plan) (b : SharedBundle) :
      Packs p (p.packAll reuser b.fileType b.assets.toList) :=
    packs_packAll p reuser b.fileType b.assets.toList
  have packs := Packs.foldl each (p.liveSharedBundles.filter fun b => reused ∈ b.consumers)
    (p.rewired reused buckets nested outgoing reuser)
  refine ⟨packs.roots.trans rewires.roots, ?_, ?_, ⟨?_, ?_, ?_⟩, ?_, ?_, ?_⟩
  · intro a b
    unfold Reuses
    rw [packs.reused]
    exact mem_pairs_copyReused
  · rw [packs.edges]
    exact rewires.edges
  · intro root x held
    exact packs.packages (rewires.packages root x held)
  · intro root x shared
    obtain ⟨b, live, has, consumer⟩ := shared
    refine ⟨b, ?_, has, consumer⟩
    rw [liveSharedBundles, packs.sharedBundles, rewires.sharedBundles]
    exact live
  · intro root x taken
    obtain ⟨key, b, found, has, consumer⟩ := taken
    exact (takesManually_copyReused packs.manualBundles found has consumer).1
  · intro fileType assets found x member
    exact packs.packages (rewires.takesBuckets fileType assets found x member)
  · intro x shared
    obtain ⟨b, live, has, consumer⟩ := shared
    have listed : b ∈ p.liveSharedBundles.filter fun b => reused ∈ b.consumers :=
      List.mem_filter.2 ⟨live, by simpa using consumer⟩
    obtain ⟨q, _, after⟩ := Packs.foldl_at each listed _
    exact .inl (after.packages (packages_packAll q reuser b.fileType has))
  · intro x taken
    obtain ⟨key, b, found, has, consumer⟩ := taken
    exact (takesManually_copyReused packs.manualBundles found has consumer).2 rfl

/-- Any other reuser joins the shared bundles. -/
theorem copies_joining :
    Copies p reused buckets nested outgoing reuser
      { p.rewired reused buckets nested outgoing reuser with
        sharedBundles := p.sharedBundles.map fun b =>
          if b.alive ∧ reused ∈ b.consumers then { b with consumers := b.consumers.insert reuser }
          else b } := by
  have rewires := rewires_rewired p reused buckets nested outgoing reuser
  refine ⟨rewires.roots, fun a b => mem_pairs_copyReused, rewires.edges,
    ⟨rewires.packages, ?_, ?_⟩, rewires.takesBuckets, ?_, ?_⟩
  · intro root x shared
    obtain ⟨b, live, has, consumer⟩ := shared
    obtain ⟨c, member, same, keeps, _⟩ := exists_joined live
    exact ⟨c, member, same ▸ has, keeps root consumer⟩
  · intro root x taken
    obtain ⟨key, b, found, has, consumer⟩ := taken
    exact (takesManually_copyReused rfl found has consumer).1
  · intro x shared
    obtain ⟨b, live, has, consumer⟩ := shared
    obtain ⟨c, member, same, _, joins⟩ := exists_joined live
    exact .inr (.inl ⟨c, member, same ▸ has, joins consumer⟩)
  · intro x taken
    obtain ⟨key, b, found, has, consumer⟩ := taken
    exact (takesManually_copyReused rfl found has consumer).2 rfl

theorem copies_copyReused :
    Copies p reused buckets nested outgoing reuser
      (p.copyReused reused buckets nested outgoing reuser) := by
  rw [copyReused_eq]
  split
  · exact copies_packing p reused buckets nested outgoing reuser
  · exact copies_joining p reused buckets nested outgoing reuser

end Copying

/-- What copying the code of `reused` into several roots does, whatever the groups are. -/
structure Spreads (p : Plan) (reused : AssetKey) (reusers : List AssetKey) (q : Plan) : Prop where
  roots : q.roots = p.roots
  reuses : ∀ a b, q.Reuses a b ↔
    if a ∈ reusers then (p.Reuses a b ∧ b ≠ reused) ∨ (p.Reuses reused b ∧ b ≠ a)
    else p.Reuses a b
  edges : ∀ e, e ∈ q.edges ↔ e ∈ p.edges ∨
    ∃ reuser ∈ reusers, ∃ old ∈ p.edges, old.source = reused ∧ old.target ≠ reuser ∧
      e = { old with source := reuser }
  keeps : Keeps p q
  inherits : ∀ reuser ∈ reusers, ∀ x, p.Holds reused x → q.Holds reuser x

theorem Spreads.nil (p : Plan) (reused : AssetKey) : Spreads p reused [] p := by
  refine ⟨rfl, ?_, ?_, .refl p, ?_⟩
  · simp
  · simp
  · intro reuser member
    cases member

theorem Spreads.step {reusers : List AssetKey} (spreads : Spreads p reused reusers q)
    (reuser : AssetKey) :
    Spreads p reused (reusers ++ [reuser])
      (q.copyReused reused (p.buckets reused) (p.reusedBy reused)
        (p.edges.filter fun e => e.source = reused) reuser) := by
  have copies := copies_copyReused q reused (p.buckets reused) (p.reusedBy reused)
    (p.edges.filter fun e => e.source = reused) reuser
  refine ⟨copies.roots.trans spreads.roots, ?_, ?_, spreads.keeps.trans copies.keeps, ?_⟩
  · intro a b
    rw [copies.reuses, spreads.reuses, mem_reusedBy]
    by_cases now : a = reuser
    · subst now
      by_cases before : a ∈ reusers
      · simp only [before, if_true, List.mem_append, true_or, true_and]
        tauto
      · simp only [before, if_false, List.mem_append, List.mem_singleton, or_true, if_true,
          true_and]
    · simp [now]
  · intro e
    rw [copies.edges, spreads.edges]
    simp only [List.mem_filter, decide_eq_true_eq, List.mem_append, List.mem_singleton]
    constructor
    · intro member
      rcases member with (old | ⟨earlier, listed, copied⟩) | ⟨old, ⟨member, source⟩, other, rfl⟩
      · exact .inl old
      · exact .inr ⟨earlier, .inl listed, copied⟩
      · exact .inr ⟨reuser, .inr rfl, old, member, source, other, rfl⟩
    · intro member
      rcases member with old | ⟨other, listed | rfl, old, member, source, apart, rfl⟩
      · exact .inl (.inl old)
      · exact .inl (.inr ⟨other, listed, old, member, source, apart, rfl⟩)
      · exact .inr ⟨old, ⟨member, source⟩, apart, rfl⟩
  · intro other member x held
    rcases List.mem_append.1 member with before | now
    · exact copies.keeps.holds (spreads.inherits other before x held)
    · rw [List.mem_singleton.1 now]
      rcases held with ⟨fileType, packed⟩ | shared | manual
      · obtain ⟨assets, found, has⟩ : ∃ assets, (p.buckets reused).get? fileType = some assets ∧
            x ∈ assets := KeyMap.mem_setAt_iff.1 packed
        exact .inl (copies.takesBuckets fileType assets found x has)
      · exact copies.takesShared x (spreads.keeps.shares reused x shared)
      · exact .inr (.inr (copies.takesManual x (spreads.keeps.manual reused x manual)))

/-- Removing a reused root keeps what copying it for one reuser after the other keeps. -/
theorem removeReused_induction {reusers : KeySet AssetKey} (motive : Plan → Prop) (start : motive p)
    (copy : ∀ q, motive q → ∀ reuser ∈ reusers, motive (q.copyReused reused (p.buckets reused)
      (p.reusedBy reused) (p.edges.filter fun e => e.source = reused) reuser)) :
    motive (p.removeReused reused reusers) :=
  List.foldlRecOn reusers.toList _ start copy

theorem spreads_removeReused (p : Plan) (reused : AssetKey) (reusers : KeySet AssetKey) :
    Spreads p reused reusers.toList (p.removeReused reused reusers) := by
  have fold (rest done : List AssetKey) (q : Plan) (spreads : Spreads p reused done q) :
      Spreads p reused (done ++ rest) (rest.foldl (fun q r => q.copyReused reused (p.buckets reused)
        (p.reusedBy reused) (p.edges.filter fun e => e.source = reused) r) q) := by
    induction rest generalizing done q with
    | nil => simpa using spreads
    | cons reuser rest ih =>
      have next := ih (done ++ [reuser]) _ (spreads.step reuser)
      rw [List.append_assoc, List.singleton_append] at next
      exact next
  exact fold reusers.toList [] p (.nil p reused)

/-- Assigning groups changes nothing else. -/
theorem Spreads.withGroups {reusers : List AssetKey} (spreads : Spreads p reused reusers q) :
    Spreads p reused reusers q.withGroups :=
  ⟨spreads.roots, spreads.reuses, spreads.edges,
    ⟨spreads.keeps.packages, spreads.keeps.shares, spreads.keeps.manual⟩, spreads.inherits⟩

section Groups

variable {reusers : List AssetKey} {group : AssetKey}

/-- A chain of reuse can still be followed, except that its end may have been taken over: then one
of the roots that took it over is at the end of a chain. -/
theorem Spreads.chain (spreads : Spreads p reused reusers q) {start last : AssetKey}
    (chain : ReflTransGen p.Reuses start last) :
    ReflTransGen q.Reuses start last ∨
      (last = reused ∧ ∃ reuser ∈ reusers, ReflTransGen q.Reuses start reuser) := by
  induction chain with
  | refl => exact .inl .refl
  | @tail b c _ pair ih =>
    rcases ih with through | ⟨rfl, reuser, taker, through⟩
    · by_cases taken : b ∈ reusers ∧ c = reused
      · exact .inr ⟨taken.2, b, taken.1, through⟩
      · refine .inl (through.tail ((spreads.reuses b c).2 ?_))
        split
        · rename_i taker
          exact .inl ⟨pair, fun same => taken ⟨taker, same⟩⟩
        · exact pair
    · by_cases back : c = reuser
      · exact .inl (back ▸ through)
      · refine .inl (through.tail ((spreads.reuses reuser c).2 ?_))
        rw [if_pos taker]
        exact .inr ⟨pair, back⟩

/-- Whatever a group held it holds afterwards, if no root has left it. -/
theorem Spreads.groupHolds (spreads : Spreads p reused reusers q)
    (stays : ∀ root, ∀ z ∈ p.groupsOf root, z ∈ q.groupsOf root) (held : p.GroupHolds group x) :
    q.GroupHolds group x := by
  obtain ⟨m, member, held⟩ := held
  obtain ⟨own, belongs, chain⟩ := mem_members.1 member
  rcases spreads.chain chain with through | ⟨rfl, reuser, taker, through⟩
  · exact ⟨m, mem_members.2 ⟨own, stays own group belongs, through⟩, spreads.keeps.holds held⟩
  · exact ⟨reuser, mem_members.2 ⟨own, stays own group belongs, through⟩,
      spreads.inherits reuser taker x held⟩

/-- No root loads in a group in which it did not load before, if none has joined the group. -/
theorem Spreads.loadsIn (spreads : Spreads p reused reusers q)
    (reusing : ∀ reuser ∈ reusers, p.Reuses reuser reused)
    (joinsNone : ∀ root, ∀ z ∈ q.groupsOf root, z ∈ p.groupsOf root) {m : AssetKey}
    (loads : q.LoadsIn group m) : p.LoadsIn group m := by
  obtain ⟨own, belongs, chain⟩ := loads
  refine ⟨own, joinsNone own group belongs, ?_⟩
  induction chain with
  | refl => exact .refl
  | @tail b c _ pair ih =>
    have old := (spreads.reuses b c).1 pair
    split at old
    · rename_i taker
      rcases old with kept | nested
      · exact ih.tail kept.1
      · exact (ih.tail (reusing b taker)).tail nested.1
    · exact ih.tail old

theorem passesAvailability_congr (same : q.roots = p.roots) (e : BundleEdge) :
    q.passesAvailability e = p.passesAvailability e := by
  unfold passesAvailability root?
  rw [same]

/-- No group can load a group that it could not load before, if no root has joined it. -/
theorem Spreads.loadsGroup (spreads : Spreads p reused reusers q)
    (reusing : ∀ reuser ∈ reusers, p.Reuses reuser reused)
    (joinsNone : ∀ root, ∀ z ∈ q.groupsOf root, z ∈ p.groupsOf root) {child : AssetKey}
    (loads : q.LoadsGroup group child) : p.LoadsGroup group child := by
  obtain ⟨other, e, listed, target, passes, inGroup⟩ := loads
  rw [passesAvailability_congr spreads.roots] at passes
  have inGroup := spreads.loadsIn reusing joinsNone inGroup
  rcases (spreads.edges e).1 listed with old | ⟨reuser, taker, old, member, source, _, rfl⟩
  · exact ⟨other, e, old, target, passes, inGroup⟩
  · refine ⟨other, old, member, target, passes, ?_⟩
    obtain ⟨own, belongs, chain⟩ := inGroup
    rw [source]
    exact ⟨own, belongs, chain.tail (reusing reuser taker)⟩

end Groups

end CodeSplit.Plan
