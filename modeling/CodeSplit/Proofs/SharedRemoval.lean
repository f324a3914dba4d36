import CodeSplit.Plan.RequestLimit
import CodeSplit.Proofs.Placement

/-!
Removing shared bundles. Copying a shared bundle into some of its consumers and dissolving bundles
that are left with fewer than two takes nothing away from any root.
-/
namespace CodeSplit.Plan

variable {p q : Plan} {root x : AssetKey}

/-- Replacing one shared bundle leaves the others. -/
theorem mem_set_or_eq {bundles : List SharedBundle} {place : Nat} {b old : SharedBundle}
    (found : bundles[place]? = some old) (new : SharedBundle) (member : b ∈ bundles) :
    b = old ∨ b ∈ bundles.set place new := by
  obtain ⟨i, at_i⟩ := List.mem_iff_getElem?.1 member
  by_cases here : i = place
  · subst here
    exact .inl (Option.some_inj.1 (at_i.symm.trans found))
  · refine .inr (List.mem_iff_getElem?.2 ⟨i, ?_⟩)
    rw [List.getElem?_set_ne (Ne.symm here)]
    exact at_i

theorem enriches_removeShared (p : Plan) (place : Nat) (consumers : KeySet AssetKey) :
    Enriches p (p.removeShared place consumers) := by
  unfold removeShared
  split
  · exact .refl p
  · rename_i b found
    have packs := packs_packAll_each p consumers.toList b.fileType b.assets.toList
    refine ⟨⟨packs.roots, packs.edges, packs.reused, packs.ownGroups⟩, ?_⟩
    intro root x held
    rcases held with packed | ⟨c, member, has, consumer⟩ | ⟨key, c, bundle, has, consumer⟩
    · exact .inl (packs.packages packed)
    · obtain ⟨listed, alive⟩ := List.mem_filter.1 member
      rcases mem_set_or_eq found { b with consumers := b.consumers.diff consumers } listed with
        rfl | kept
      · by_cases taken : root ∈ consumers
        · exact .inl (packages_packAll_each p c.fileType taken has)
        · refine .inr (.inl ⟨{ c with consumers := c.consumers.diff consumers }, ?_, has,
            KeySet.mem_diff.2 ⟨consumer, taken⟩⟩)
          exact List.mem_filter.2 ⟨List.mem_set (List.getElem?_eq_some_iff.1 found).1 _, alive⟩
      · exact .inr (.inl ⟨c, List.mem_filter.2 ⟨kept, alive⟩, has, consumer⟩)
    · refine .inr (.inr ⟨key, c, ?_, has, consumer⟩)
      show (List.foldl _ p _).manualBundles.get? key = some c
      rw [packs.manualBundles]
      exact bundle

theorem sharedBundles_removeShared {place : Nat} {b : SharedBundle}
    (found : p.sharedBundles[place]? = some b) (consumers : KeySet AssetKey) :
    (p.removeShared place consumers).sharedBundles =
      p.sharedBundles.set place { b with consumers := b.consumers.diff consumers } := by
  unfold removeShared
  rw [found]

theorem manualBundles_removeShared (p : Plan) (place : Nat) (consumers : KeySet AssetKey) :
    (p.removeShared place consumers).manualBundles = p.manualBundles := by
  unfold removeShared
  split
  · rfl
  · rename_i b _
    exact (packs_packAll_each p consumers.toList b.fileType b.assets.toList).manualBundles

theorem dissolve_eq {i : Index} {b : SharedBundle} (success : (p.dissolve i b).result = .ok q) :
    q = b.consumers.toList.foldl (fun p c => p.packAll c b.fileType b.assets.toList) p := by
  unfold dissolve at success
  obtain ⟨_, _, success⟩ := Report.result_bind_eq_ok.1 success
  cases success
  rfl

theorem dissolve_ok {i : Index} {b : SharedBundle} (success : (p.dissolve i b).result = .ok q) :
    Packs p q ∧ ∀ root ∈ b.consumers, ∀ x ∈ b.assets, q.Packages root x := by
  obtain rfl := dissolve_eq success
  refine ⟨packs_packAll_each p b.consumers.toList b.fileType b.assets.toList, ?_⟩
  intro root consumer x has
  exact packages_packAll_each p b.fileType consumer has

/-- Spent bundles stay in the list, but are no longer alive. -/
def retired (bundles : List SharedBundle) : List SharedBundle :=
  bundles.map fun b => if isSpent b then { b with alive := false } else b

/-- Pruning retires spent bundles and packs what is in them. -/
theorem packs_prune {i : Index} (success : (p.prune i).result = .ok q) :
    Packs { p with sharedBundles := retired p.sharedBundles } q := by
  unfold prune at success
  simp only [Report.result_foldlM] at success
  refine foldlM_ok_induction (fun _ q => Packs _ q) ?_ (.refl _) success
  intro b _ before after packs step
  exact packs.trans (dissolve_ok step).1

theorem enriches_prune {i : Index} (success : (p.prune i).result = .ok q) : Enriches p q := by
  have packs := packs_prune success
  unfold prune at success
  simp only [Report.result_foldlM] at success
  have dissolved : ∀ b ∈ p.sharedBundles.filter isSpent,
      ∀ root ∈ b.consumers, ∀ x ∈ b.assets, q.Packages root x := by
    refine foldlM_ok_each (fun b q => ∀ root ∈ b.consumers, ∀ x ∈ b.assets, q.Packages root x) ?_
      success
    intro b before after step
    obtain ⟨packs, holds⟩ := dissolve_ok step
    exact ⟨holds, fun c done root consumer x has => packs.packages (done root consumer x has)⟩
  refine ⟨⟨packs.roots, packs.edges, packs.reused, packs.ownGroups⟩, ?_⟩
  intro root x held
  rcases held with packed | ⟨b, member, has, consumer⟩ | manual
  · exact .inl (packs.packages packed)
  · obtain ⟨listed, alive⟩ := List.mem_filter.1 member
    by_cases spent : isSpent b = true
    · exact .inl (dissolved b (List.mem_filter.2 ⟨listed, spent⟩) root consumer x has)
    · refine .inr (.inl ⟨b, ?_, has, consumer⟩)
      unfold liveSharedBundles
      rw [packs.sharedBundles]
      exact List.mem_filter.2 ⟨List.mem_map.2 ⟨b, listed, if_neg spent⟩, alive⟩
  · exact packs.holds (.inr (.inr manual))

end CodeSplit.Plan
