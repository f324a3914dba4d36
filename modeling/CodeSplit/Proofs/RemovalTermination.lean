import CodeSplit.Proofs.LimiterBudget
import CodeSplit.Proofs.LinkOrder
import CodeSplit.Proofs.PlanContents
import CodeSplit.Proofs.RemovalMeasure

/-!
Limiting ends where roots do not reuse each other in a circle. All that it looks up in the index is
there, so that no step fails, and it makes no more removals than the measure of the plan allows.
-/
namespace CodeSplit

open Relation (TransGen)

namespace Index

variable {i : Index} {k : AssetKey} {ks : KeySet AssetKey}

/-- The key is that of an asset. -/
def Known (i : Index) (k : AssetKey) : Prop := ∃ asset, i.asset k = .ok asset

theorem Known.idOf (known : i.Known k) : ∃ id, i.idOf k = .ok id := by
  obtain ⟨asset, isAsset⟩ := known
  exact ⟨asset.id, map_eq_ok_iff.2 ⟨asset, isAsset, rfl⟩⟩

theorem exists_idsOf (known : ∀ k ∈ ks, i.Known k) : ∃ ids, i.idsOf ks = .ok ids :=
  exists_mapM_ok fun k member => (known k member).idOf

/-- The size of the asset of a key. -/
def weight (i : Index) (k : AssetKey) : Nat := ((i.asset? k).map Asset.size).getD 0

theorem Known.sizeOf (known : i.Known k) : i.sizeOf k = .ok (i.weight k) := by
  obtain ⟨asset, isAsset⟩ := known
  simp [Index.sizeOf, weight, isAsset, asset_eq_ok_iff.1 isAsset, Functor.map, Except.map]

theorem totalSize_eq_total (known : ∀ k ∈ ks, i.Known k) :
    i.totalSize ks = .ok (total (ks.toList.map i.weight)) :=
  map_eq_ok_iff.2 ⟨_, mapM_eq_ok fun k member => (known k member).sizeOf, rfl⟩

theorem exists_totalSize (known : ∀ k ∈ ks, i.Known k) : ∃ size, i.totalSize ks = .ok size :=
  ⟨_, totalSize_eq_total known⟩

theorem Known.of_root {entries : List Entry} {root : Root}
    (found : (i.roots entries).get? k = some root) : i.Known k := by
  obtain ⟨_, asset, isAsset, _⟩ := get?_roots_eq_some_iff.1 found
  exact ⟨asset, asset_eq_ok_iff.2 isAsset⟩

/-- What has been placed are assets of the index. -/
theorem Places.within_known {config : Config} {entries : List Entry} {placed : Plan}
    (places : i.Places config entries placed) : placed.Within i.Known :=
  places.within (fun _ _ found => .of_root found) fun _ asset isAsset _ => ⟨asset, isAsset⟩

end Index

namespace Plan

variable {p q : Plan} {i : Index} {group : AssetKey}

section Progress

theorem exists_sharedRemoval? {b : SharedBundle} (known : ∀ x ∈ b.assets, i.Known x)
    (members : KeySet AssetKey) (place : Nat) :
    ∃ removal?, p.sharedRemoval? i members place b = .ok removal? := by
  unfold sharedRemoval?
  simp only []
  split
  · obtain ⟨ids, named⟩ := Index.exists_idsOf known
    exact ⟨_, bind_eq_ok_iff.2 ⟨ids, named, rfl⟩⟩
  · exact ⟨none, rfl⟩

theorem exists_reusedRemoval? (within : p.Within i.Known) (own : KeySet AssetKey)
    (reused : AssetKey) : ∃ removal?, p.reusedRemoval? i own reused = .ok removal? := by
  unfold reusedRemoval?
  split
  · rename_i root buckets _ placed
    have known (fileType : FileType) (assets : KeySet AssetKey)
        (found : buckets.get? fileType = some assets) : ∀ x ∈ assets, i.Known x := by
      intro x member
      refine within.packages reused x ⟨fileType, KeyMap.mem_setAt_iff.2 ⟨assets, ?_, member⟩⟩
      rw [Plan.buckets, placed]
      exact found
    simp only []
    split
    · have each : ∀ assets ∈ buckets.values, ∃ size, i.totalSize assets = .ok size := by
        intro assets listed
        obtain ⟨fileType, found⟩ := KeyMap.mem_values_iff.1 listed
        exact Index.exists_totalSize (known fileType assets found)
      obtain ⟨sizes, measured⟩ := exists_mapM_ok each
      have main : ∀ x ∈ (buckets.get? root.fileType).getD ∅, i.Known x := by
        intro x member
        obtain ⟨assets, found, member⟩ := KeyMap.mem_setAt_iff.1 member
        exact known root.fileType assets found x member
      obtain ⟨ids, named⟩ := Index.exists_idsOf main
      exact ⟨_, bind_eq_ok_iff.2 ⟨sizes, measured, bind_eq_ok_iff.2 ⟨ids, named, rfl⟩⟩⟩
    · exact ⟨none, rfl⟩
  · exact ⟨none, rfl⟩

/-- Looking for a removal does not fail. -/
theorem exists_nextRemoval? (within : p.Within i.Known) (group : AssetKey) :
    ∃ removal?, p.nextRemoval? i group = .ok removal? := by
  obtain ⟨shared, sharedOnes⟩ : ∃ shared, (p.sharedBundles.zipIdx.mapM fun entry =>
      p.sharedRemoval? i (p.members group) entry.2 entry.1) = .ok shared := by
    refine exists_mapM_ok ?_
    rintro ⟨b, place⟩ listed
    have member := List.mem_of_getElem? (List.mem_zipIdx_iff_getElem?.1 listed)
    exact exists_sharedRemoval? (within.shared b member).1 (p.members group) place
  obtain ⟨reused, reusedOnes⟩ : ∃ reused, (p.reusedMembers group).toList.mapM
      (p.reusedRemoval? i (p.ownMembers group)) = .ok reused :=
    exists_mapM_ok fun root _ => exists_reusedRemoval? within (p.ownMembers group) root
  have listed : p.removals i group = .ok ((shared ++ reused).filterMap id) :=
    bind_eq_ok_iff.2 ⟨shared, sharedOnes, bind_eq_ok_iff.2 ⟨reused, reusedOnes, rfl⟩⟩
  exact ⟨_, map_eq_ok_iff.2 ⟨_, listed, rfl⟩⟩

theorem exists_prune (within : p.Within i.Known) : ∃ q, (p.prune i).result = .ok q := by
  unfold prune
  rw [Report.result_foldlM]
  refine exists_foldlM_ok ?_ _
  intro s b listed
  obtain ⟨ids, named⟩ :=
    Index.exists_idsOf (within.shared b (List.mem_of_mem_filter listed)).2
  exact ⟨_, Report.result_bind_eq_ok.2 ⟨ids, named, rfl⟩⟩

/-- Nothing can be removed from a group, or a removal is carried out. -/
theorem removes_or_nothing (within : p.Within i.Known) (named : ∃ id, i.idOf group = .ok id) :
    p.nextRemoval? i group = .ok none ∨ ∃ q, p.Removes i group q := by
  obtain ⟨removal?, found⟩ := exists_nextRemoval? within group
  cases removal? with
  | none => exact .inl found
  | some removal =>
    right
    have rootNamed : ∀ root, removal.subject = .reused root → ∃ id, i.idOf root = .ok id := by
      rcases nextRemoval?_eq_some found with
        ⟨place, b, _, _, subject, _⟩ | ⟨reused, can, subject, _⟩
      · rw [subject]
        exact fun _ other => by cases other
      · rw [subject]
        rintro _ ⟨⟩
        obtain ⟨root, isRoot, _⟩ := can.notInline
        exact (within.roots reused root isRoot).idOf
    have applied : (p.applyRemoval i group removal).result = .ok (p.withRemoval removal) :=
      applyRemoval_eq_ok.2 ⟨rfl, named, rootNamed⟩
    obtain ⟨q, pruned⟩ := exists_prune (within.withRemoval found)
    exact ⟨q, removal, _, found, applied, pruned⟩

end Progress

section Steps

variable {limit : Nat} {groups : List AssetKey} {holds : Plan → Prop} {measure : Plan → Nat}

/-- If every removal lessens a measure, then a round over all groups for each unit of the measure,
and a last one, are enough. What is left of the round that is going on, and the round after it if
something was removed, are counted apart. -/
theorem exists_limitFrom (named : ∀ group ∈ groups, ∃ id, i.idOf group = .ok id)
    (progress : ∀ p, holds p → ∀ group ∈ groups, p.nextRemoval? i group = .ok none ∨
      ∃ q, p.Removes i group q ∧ holds q ∧ measure q < measure p)
    {fuel : Nat} {pending : List AssetKey} {changed : Bool} {removed : Nat} (invariant : holds p)
    (inside : ∀ group ∈ pending, group ∈ groups)
    (enough : measure p * (groups.length + 2) + (pending.length + 1) +
      (if changed then groups.length + 1 else 0) ≤ fuel) :
    ∃ out, (limitFrom i limit groups fuel pending changed removed p).result = .ok out := by
  induction fuel generalizing pending changed removed p with
  | zero => omega
  | succ fuel ih =>
    cases pending with
    | nil =>
      cases changed with
      | false => exact ⟨_, rfl⟩
      | true =>
        simp only [List.length_nil, if_true] at enough
        refine ih invariant (fun _ listed => listed) ?_
        simp only [Bool.false_eq_true, if_false]
        omega
    | cons group pending =>
      rw [List.length_cons] at enough
      have later : ∀ group ∈ pending, group ∈ groups :=
        fun other listed => inside other (List.mem_cons_of_mem _ listed)
      have listed := inside group List.mem_cons_self
      unfold limitFrom
      split
      · exact ih invariant later (by omega)
      · rcases progress p invariant group listed with
          nothing | ⟨q, ⟨removal, next, found, applied, pruned⟩, kept, less⟩
        · obtain ⟨id, isId⟩ := named group listed
          obtain ⟨out, rest⟩ : ∃ out,
              (limitFrom i limit groups fuel pending changed removed p).result = .ok out :=
            ih invariant later (by omega)
          exact ⟨out, Report.result_bind_eq_ok.2 ⟨none, nothing, Report.result_bind_eq_ok.2
            ⟨id, isId, Report.result_bind_eq_ok.2 ⟨(), rfl, rest⟩⟩⟩⟩
        · have units := Nat.mul_le_mul_right (groups.length + 2) less
          rw [Nat.succ_mul] at units
          obtain ⟨out, rest⟩ : ∃ out, (limitFrom i limit groups fuel (group :: pending) true
              (removed + 1) q).result = .ok out := by
            refine ih kept inside ?_
            simp only [List.length_cons, if_true]
            omega
          exact ⟨out, Report.result_bind_eq_ok.2 ⟨some removal, found, Report.result_bind_eq_ok.2
            ⟨next, applied, Report.result_bind_eq_ok.2 ⟨q, pruned, rest⟩⟩⟩⟩

end Steps

/-- Limiting ends if all keys of the plan are known and reuse does not go in a circle. -/
theorem exists_limitRequests (within : p.Within i.Known) (acyclic : ∀ a, ¬TransGen p.Reuses a a)
    (config : Config) : ∃ limited, (p.limitRequests i config).result = .ok limited := by
  cases enabled : config.disableSharedBundles with
  | true =>
    refine ⟨p, ?_⟩
    unfold limitRequests
    rw [enabled]
    rfl
  | false =>
    have named : ∀ group ∈ p.groupRoots, ∃ id, i.idOf group = .ok id := by
      intro group listed
      obtain ⟨root, isRoot, _⟩ := mem_groupRoots.1 listed
      exact (within.roots group root isRoot).idOf
    have progress : ∀ q, q.Within i.Known ∧ Descends p q → ∀ group ∈ p.groupRoots,
        q.nextRemoval? i group = .ok none ∨ ∃ r, q.Removes i group r ∧
          (r.Within i.Known ∧ Descends p r) ∧ potential p r < potential p q := by
      rintro q ⟨within, descends⟩ group listed
      refine (removes_or_nothing within (named group listed)).imp id ?_
      rintro ⟨r, removes⟩
      exact ⟨r, removes, ⟨removes.within within, removes.descends descends⟩,
        removes.potential_lt acyclic descends⟩
    obtain ⟨⟨limited, removed⟩, run⟩ : ∃ out, (limitFrom i config.maxParallelRequests p.groupRoots
        (potential p p * (p.groupRoots.length + 2) + (p.groupRoots.length + 1)) p.groupRoots false
          0 p).result = .ok out :=
      exists_limitFrom named progress ⟨within, .refl p⟩ (fun _ listed => listed) (Nat.le_refl _)
    exact ⟨limited, (limitRequests_eq_ok_iff enabled).2 ⟨_, removed, run⟩⟩

end Plan

/-- Take any plan in which all assets have been placed, and in which no root leads back to itself
through reuse. However many requests are allowed, limiting them returns, and no sequence of
removals, whichever groups they are for, is longer than the budget of the plan. -/
theorem limitRequests_terminates (i : Index) (config : Config) (entries : List Entry)
    (placed : Plan) (places : i.Places config entries placed)
    (acyclic : ∀ a, ¬TransGen placed.Reuses a a) (limits : Config) :
    (∃ limited, (placed.limitRequests i limits).result = .ok limited) ∧
      ∀ count q, Plan.RemovesIn i count placed q → count ≤ placed.removalBudget := by
  have within : placed.Within i.Known :=
    places.within (fun _ _ found => .of_root found) fun _ asset isAsset _ => ⟨asset, isAsset⟩
  refine ⟨Plan.exists_limitRequests within acyclic limits, ?_⟩
  intro count q run
  have used := run.potential_le acyclic (.refl placed)
  have budget := Plan.potential_start_le placed
  omega

/-- Three pages behind an entry: the first imports the second, and the second the third. -/
def reuseChain : AssetGraph :=
  let dependency (id : String) (priority : Priority) : AssetGraph.Node :=
    .dependency { id, specifier := id, priority }
  { nodes := [.root, .dependency { id := "entry", specifier := "index", isEntry := true },
      .asset { id := "index" }, dependency "load a" .lazy, .asset { id := "a" },
      dependency "load b" .lazy, .asset { id := "b" }, dependency "load c" .lazy,
      .asset { id := "c" }, dependency "a to b" .sync, dependency "b to c" .sync]
    edges := [(0, 1), (1, 2), (2, 3), (3, 4), (2, 5), (5, 6), (2, 7), (7, 8), (4, 9), (9, 6),
      (6, 10), (10, 8)] }

def reuseChainEntries : List Entry :=
  [⟨{ id := "entry", specifier := "index", isEntry := true }, 3, {}⟩]

/-- Removing the second page from the group of the first makes the first reuse the third. -/
theorem reuseChain_terminates :
    ∃ placed, (Index.ofGraph reuseChain).Places {} reuseChainEntries placed ∧
      placed.reused = .ofList [(0, 1), (1, 2)] ∧
      ∃ limited, (placed.limitRequests (Index.ofGraph reuseChain)
        { maxParallelRequests := 1 }).result = .ok limited := by
  have computed : Plan.reused <$> ((Index.ofGraph reuseChain).placedPlan {} {}
      reuseChainEntries).result = .ok (.ofList [(0, 1), (1, 2)]) := by decide +kernel
  obtain ⟨placed, success, reused⟩ := map_eq_ok_iff.1 computed
  have places : (Index.ofGraph reuseChain).Places {} reuseChainEntries placed := ⟨{}, success⟩
  have forward {a b : AssetKey} (pair : placed.Reuses a b) : a < b := by
    unfold Plan.Reuses at pair
    rw [reused, KeySet.mem_ofList] at pair
    simp only [List.mem_cons, Prod.mk.injEq, List.not_mem_nil, or_false] at pair
    rcases pair with ⟨rfl, rfl⟩ | ⟨rfl, rfl⟩
    · decide
    · decide
  have acyclic : ∀ a, ¬TransGen placed.Reuses a a := by
    intro a around
    have ahead : ∀ b, TransGen placed.Reuses a b → a < b := by
      intro b chain
      induction chain with
      | single pair => exact forward pair
      | tail _ pair ih => exact ih.trans (forward pair)
    exact Nat.lt_irrefl a (ahead a around)
  exact ⟨placed, places, reused,
    (limitRequests_terminates _ _ _ placed places acyclic { maxParallelRequests := 1 }).1⟩

end CodeSplit
