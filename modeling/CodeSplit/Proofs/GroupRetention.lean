import CodeSplit.Proofs.GroupClosure
import CodeSplit.Proofs.RequestLimiting
import CodeSplit.Proofs.TargetPasses

/-!
No removal takes an asset away from a group. Those who take over a bundle get all that is in it, and
whoever was led to a reused root is now led to one of them. Groups are assigned anew when a reused
root is removed, but no edge is lost, so that no root leaves a group that it had from the edges.
-/
namespace CodeSplit.Plan

variable {p q : Plan} {i : Index} {group : AssetKey}

/-- Roots are only in groups that the edges give them. -/
def Backed (p : Plan) : Prop := ∀ root, ∀ z ∈ p.groupsOf root, z ∈ p.withGroups.groupsOf root

theorem backed_withGroups (p : Plan) : Backed p.withGroups := fun _ _ member => member

theorem Backed.of_sameShape (backed : Backed p) (same : SameShape p q) : Backed q := by
  intro root z member
  have before : z ∈ p.groupsOf root := by
    unfold groupsOf at member ⊢
    rw [same.ownGroups] at member
    exact member
  refine groupsOf_withGroups_mono same.roots ?_ (backed root z before)
  intro e listed
  rw [same.edges]
  exact listed

/-- One removal: groups are still those of the edges, and each holds what it held. -/
theorem Removes.keepsGroups (removes : p.Removes i group q) (backed : Backed p) :
    Backed q ∧ ∀ other x, p.GroupHolds other x → q.GroupHolds other x := by
  rcases removes.effects with enriches | ⟨reused, reusers, _, spreads, enriches⟩
  · exact ⟨backed.of_sameShape enriches.toSameShape, enriches.reduces.holds⟩
  · refine ⟨(backed_withGroups _).of_sameShape enriches.toSameShape, ?_⟩
    -- no edge is lost, so that no root leaves a group when groups are assigned anew
    have stays : ∀ root, ∀ z ∈ p.groupsOf root,
        z ∈ (p.removeReused reused reusers).withGroups.groupsOf root := by
      intro root z member
      have sameRoots := (spreads_removeReused p reused reusers).roots
      exact groupsOf_withGroups_mono sameRoots (fun e old => (spreads.edges e).2 (.inl old))
        (backed root z member)
    intro other x held
    exact enriches.reduces.holds other x (spreads.groupHolds stays held)

theorem backed_of_places {config : Config} {entries : List Entry} {placed : Plan}
    (places : i.Places config entries placed) : Backed placed := by
  obtain ⟨target, walked, reach, packing, extracted, e, walks, _, moved, shared⟩ :=
    places.passes
  obtain ⟨rfl, rfl⟩ := Index.walkedPlan_ok walks
  exact (backed_withGroups _).of_sameShape (holds_of_consumer moved shared).1

/-- In every plan that requests are limited from, roots are only in groups that the edges give them.
Take any plan of which this is true and any number of removals from it, whichever groups they are
for. One more removal, of a shared bundle or of a reused root, takes nothing away from what a group
loads: the bundles of its members, and the live shared and the manual bundles that these load. -/
theorem groupHolds_of_removal (i : Index) :
    (∀ config entries placed, i.Places config entries placed → Backed placed) ∧
    ∀ (start p q : Plan) (count : Nat) (group : AssetKey), Backed start →
      RemovesIn i count start p → p.Removes i group q →
        ∀ other x, p.GroupHolds other x → q.GroupHolds other x := by
  refine ⟨fun _ _ _ => backed_of_places, ?_⟩
  intro start p q count group backed reached removes other x held
  have backed : Backed p :=
    reached.keeps (fun _ _ _ backed removes => (removes.keepsGroups backed).1) backed
  exact (removes.keepsGroups backed).2 other x held

/-- Two lazy roots `0` and `1` that reuse each other; `1` is loaded along with `2`. -/
def reuseCircle : Plan :=
  let lazyRoot (id : String) : Root := { assetId := id, triggers := { lazy := true } }
  { roots := .ofList [(0, lazyRoot "a"), (1, lazyRoot "b"),
      (2, { assetId := "c", triggers := { parallel := true } }),
      (3, { assetId := "index", triggers := { entry := true } })]
    edges := [⟨3, 0, 3, "", { lazy := true }⟩, ⟨3, 1, 3, "", { lazy := true }⟩,
      ⟨1, 2, 1, "", { parallel := true }⟩]
    reused := .ofList [(0, 1), (1, 0)]
    placements := .ofList ([0, 1, 2, 3].map fun k => (k, .ofList [(.js, .singleton k)])) }

def reuseCircleIndex : Index :=
  ⟨["a", "b", "c", "index"].map fun id => ⟨{ id := id }, "", []⟩⟩

/-- The root `0` has taken over the code of `1`, and is loaded along with `2` too. -/
def reuseCircleCut : Plan :=
  { reuseCircle with
    edges := reuseCircle.edges ++ [⟨0, 2, 1, "", { parallel := true }⟩]
    reused := .ofList [(1, 0)]
    ownGroups := .ofList [(0, .ofList [0]), (1, .ofList [1]), (2, .ofList [0, 1]), (3, .ofList [3])]
    placements := .ofList [(0, .ofList [(.js, .ofList [0, 1])]), (1, .ofList [(.js, .ofList [1])]),
      (2, .ofList [(.js, .ofList [2])]), (3, .ofList [(.js, .ofList [3])])] }

theorem reuseCircle_cut_keeps :
    reuseCircle.withGroups.Removes reuseCircleIndex 0 reuseCircleCut ∧
      reuseCircleCut.GroupHolds 0 1 := by
  have removes : reuseCircle.withGroups.Removes reuseCircleIndex 0 reuseCircleCut :=
    ⟨_, _, rfl, rfl, rfl⟩
  have held : reuseCircle.withGroups.GroupHolds 0 1 :=
    ⟨1, by decide, .inl ⟨.js, by decide⟩⟩
  obtain ⟨_, retains⟩ := groupHolds_of_removal reuseCircleIndex
  exact ⟨removes, retains _ _ _ 0 0 (backed_withGroups reuseCircle) (.none _) removes 0 1 held⟩

end CodeSplit.Plan
