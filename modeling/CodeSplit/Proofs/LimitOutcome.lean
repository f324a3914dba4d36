import CodeSplit.Proofs.RequestLimiting

/-!
What limiting achieves. A removal for one group can give others more to load, so a pass over the
groups settles nothing while bundles are removed in it. Only a pass without a removal ends the run:
then every group was found limited in one and the same plan, the one that is returned.
-/
namespace CodeSplit.Plan

variable {p q : Plan} {i : Index} {limit : Nat}

/-- While nothing has been removed in a pass, the groups that the pass has gone over are limited. -/
theorem limited_of_limitFrom {groups pending : List AssetKey} {changed : Bool}
    {fuel removed total : Nat}
    (passed : changed = false → ∀ group ∈ groups, group ∈ pending ∨ p.Limited i limit group)
    (success : (limitFrom i limit groups fuel pending changed removed p).result = .ok (q, total)) :
    ∀ group ∈ groups, q.Limited i limit group := by
  induction fuel generalizing pending changed removed p with
  | zero => cases success
  | succ fuel ih =>
    rcases limitFrom_succ_ok success with ⟨rfl, unchanged, same⟩ | ⟨_, _, rest⟩ |
      ⟨first, later, rfl, limited, rest⟩ | ⟨_, _, next, _, _, rest⟩
    · cases same
      intro group listed
      exact (passed unchanged group listed).resolve_left (by simp)
    · exact ih (fun _ group listed => .inl listed) rest
    · refine ih ?_ rest
      intro unchanged group listed
      rcases passed unchanged group listed with waiting | done
      · rcases List.mem_cons.1 waiting with rfl | waiting
        · exact .inr limited
        · exact .inl waiting
      · exact .inr done
    -- a removal: this pass will not be the last
    · exact ih (fun unchanged => by cases unchanged) rest

/-- Limiting ends with the second plan, with some number of steps allotted to it. -/
def LimitsTo (p : Plan) (i : Index) (limit : Nat) (q : Plan) : Prop :=
  ∃ fuel removed,
    (limitFrom i limit p.groupRoots fuel p.groupRoots false 0 p).result = .ok (q, removed)

/-- Limiting comes to an end with some number of steps allotted to it, be it with a fault. -/
def LimitEnds (p : Plan) (i : Index) (limit : Nat) : Prop :=
  ∃ fuel, (limitFrom i limit p.groupRoots fuel p.groupRoots false 0 p).result ≠
    .error (.misuse .endlessRemovals)

theorem limitsTo_of_limitRequests {config : Config} (enabled : config.disableSharedBundles = false)
    (success : (p.limitRequests i config).result = .ok q) :
    p.LimitsTo i config.maxParallelRequests q := by
  unfold limitRequests at success
  rw [enabled] at success
  obtain ⟨⟨limited, removed⟩, run, success⟩ := Report.result_bind_eq_ok.1 success
  cases success
  exact ⟨_, removed, run⟩

theorem LimitsTo.groupRoots (limits : p.LimitsTo i limit q) : q.groupRoots = p.groupRoots := by
  obtain ⟨fuel, removed, success⟩ := limits
  obtain ⟨count, _, run⟩ := removesIn_of_limitFrom success
  have roots : q.roots = p.roots :=
    run.keeps (motive := fun r => r.roots = p.roots)
      (fun _ _ _ same removes => removes.roots.trans same) rfl
  unfold Plan.groupRoots
  rw [roots]

/-- Whenever limiting ends, no matter how many steps it is allotted, each group of the plan it ends
with loads no more bundles than the limit allows, or there is nothing left that the group can do
without: no live shared bundle for whose assets all members that load it have a bucket, and no
reused root, inline ones apart, for whose assets all members that reuse it have buckets. -/
theorem limited_on_return (p : Plan) (i : Index) (config : Config)
    (enabled : config.disableSharedBundles = false) :
    (∀ q, (p.limitRequests i config).result = .ok q →
      p.LimitsTo i config.maxParallelRequests q) ∧
    ∀ q, p.LimitsTo i config.maxParallelRequests q → ∀ group ∈ q.groupRoots,
      q.requestCount group ≤ config.maxParallelRequests ∨
        (q.nextRemoval? i group = .ok none ∧ (∀ b ∈ q.liveSharedBundles, ¬q.CanDropShared group b) ∧
          ∀ reused, ¬q.CanDropReused group reused) := by
  refine ⟨fun q => limitsTo_of_limitRequests enabled, ?_⟩
  intro q limits group listed
  rw [limits.groupRoots] at listed
  obtain ⟨fuel, removed, success⟩ := limits
  rcases limited_of_limitFrom (fun _ _ listed => .inl listed) success group listed with
    within | nothing
  · exact .inl within
  · obtain ⟨noShared, noReused⟩ := nextRemoval?_eq_none_iff.1 nothing
    exact .inr ⟨nothing, fun b live => noShared b (List.mem_of_mem_filter live), noReused⟩

/-- A lazy root `0` with scripts and styles that reuses the lazy root `1`. -/
def styledReuse : Plan :=
  let lazyRoot (id : String) : Root := { assetId := id, triggers := { lazy := true } }
  Plan.withGroups
    { roots := .ofList [(0, lazyRoot "a"), (1, lazyRoot "b"),
        (2, { assetId := "index", triggers := { entry := true } })]
      reused := .ofList [(0, 1)]
      placements := .ofList [(0, .ofList [(.js, .singleton 0), (.css, .singleton 3)]),
        (1, .ofList [(.js, .singleton 1)]), (2, .ofList [(.js, .singleton 2)])] }

def styledReuseIndex : Index :=
  ⟨["a", "b", "index", "style"].map fun id => ⟨{ id := id }, "", []⟩⟩

/-- The root `0` has a copy of `1`. -/
def styledReuseLimited : Plan :=
  { styledReuse with
    reused := ∅
    placements := .ofList [(0, .ofList [(.js, .ofList [0, 1]), (.css, .singleton 3)]),
      (1, .ofList [(.js, .singleton 1)]), (2, .ofList [(.js, .singleton 2)])] }

/-- With one request allowed, the group of `0` still needs two, and there is nothing left to remove
from it. -/
theorem styledReuse_exhausted :
    (styledReuse.limitRequests styledReuseIndex { maxParallelRequests := 1 }).result =
      .ok styledReuseLimited ∧
    styledReuseLimited.requestCount 0 = 2 ∧
    styledReuseLimited.nextRemoval? styledReuseIndex 0 = .ok none := by
  have success : (styledReuse.limitRequests styledReuseIndex { maxParallelRequests := 1 }).result =
      .ok styledReuseLimited := by decide +kernel
  have two : styledReuseLimited.requestCount 0 = 2 := by decide +kernel
  obtain ⟨returns, limited⟩ :=
    limited_on_return styledReuse styledReuseIndex { maxParallelRequests := 1 } rfl
  rcases limited _ (returns _ success) 0 (by decide +kernel) with within | ⟨nothing, _⟩
  · rw [two] at within
    exact absurd within (by decide)
  · exact ⟨success, two, nothing⟩

end CodeSplit.Plan
