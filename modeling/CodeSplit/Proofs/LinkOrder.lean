import CodeSplit.Proofs.CreatedRoots
import CodeSplit.Proofs.IndexAgreement
import CodeSplit.Proofs.RootWalks

/-!
Roots and walks do not depend on the order in which assets list their dependencies. A walk meets the
same assets in some order; what is kept of it is a set, or is sorted by keys that name one
dependency each.
-/
namespace CodeSplit

theorem Triggers.union_right_comm (a b c : Triggers) :
    (a.union b).union c = (a.union c).union b := by
  simp [union, Bool.or_right_comm]

theorem lowest_of_foldl (first : Dependency) (rest : List Dependency) :
    let lowest := rest.foldl (fun d e => if KeyOrder.before e.id d.id then e else d) first
    lowest ∈ first :: rest ∧ ∀ e ∈ first :: rest, KeyOrder.before e.id lowest.id = false := by
  induction rest generalizing first with
  | nil => simp [KeyOrder.irrefl]
  | cons e rest ih =>
    rw [List.foldl_cons]
    by_cases earlier : KeyOrder.before e.id first.id = true
    · rw [if_pos earlier]
      obtain ⟨member, least⟩ := ih e
      refine ⟨List.mem_cons_of_mem _ member, ?_⟩
      have head := least e List.mem_cons_self
      exact List.forall_mem_cons.2
        ⟨KeyOrder.not_before_trans head (KeyOrder.asymm earlier), least⟩
    · rw [if_neg earlier]
      obtain ⟨member, least⟩ := ih first
      have head := least first List.mem_cons_self
      have notEarlier : KeyOrder.before e.id first.id = false := by simpa using earlier
      refine ⟨?_, ?_⟩
      · rcases List.mem_cons.1 member with same | member
        · rw [same]
          exact List.mem_cons_self
        · exact List.mem_cons_of_mem _ (List.mem_cons_of_mem _ member)
      · intro d listed
        rcases List.mem_cons.1 listed with rfl | listed
        · exact head
        · rcases List.mem_cons.1 listed with rfl | listed
          · exact KeyOrder.not_before_trans head notEarlier
          · exact least d (List.mem_cons_of_mem _ listed)

/-- Where ids tell the dependencies apart, the lowest one does not depend on their order. -/
theorem lowestDependency?_eq_of_perm {xs ys : List Dependency} (perm : xs.Perm ys)
    (apart : ∀ d ∈ xs, ∀ e ∈ xs, d.id = e.id → d = e) :
    lowestDependency? xs = lowestDependency? ys := by
  cases xs with
  | nil => rw [perm.nil_eq]
  | cons x xs =>
    cases ys with
    | nil => simp at perm
    | cons y ys =>
      obtain ⟨left, leastLeft⟩ := lowest_of_foldl x xs
      obtain ⟨right, leastRight⟩ := lowest_of_foldl y ys
      have rightToo := perm.mem_iff.2 right
      refine congrArg some (apart _ left _ rightToo ?_)
      exact KeyOrder.total (leastRight _ (perm.mem_iff.1 left)) (leastLeft _ rightToo)

theorem Root.ofCreations_eq_of_perm {cs ds : List Creation} (asset : Asset) (perm : cs.Perm ds)
    (apart : ∀ c ∈ cs, ∀ d ∈ cs, c.dependency.id = d.dependency.id → c.dependency = d.dependency) :
    ofCreations asset cs = ofCreations asset ds := by
  let join (t : Triggers) (c : Creation) : Triggers := t.union c.triggers
  have triggers : cs.foldl join {} = ds.foldl join {} := by
    apply perm.foldl_eq'
    intro c _ d _ t
    exact Triggers.union_right_comm t c.triggers d.triggers
  have lowest : lowestDependency? (cs.map Creation.dependency) =
      lowestDependency? (ds.map Creation.dependency) := by
    apply lowestDependency?_eq_of_perm (perm.map _)
    intro d left e right
    obtain ⟨c, member, rfl⟩ := List.mem_map.1 left
    obtain ⟨c', memberToo, rfl⟩ := List.mem_map.1 right
    exact apart c member c' memberToo
  unfold ofCreations
  rw [triggers, lowest, perm.any_eq]

namespace Index

variable {i j : Index} {known : Dependency → Prop} {entries others : List Entry}

theorem mem_boundaries {b : Boundary} :
    b ∈ i.boundaries entries ↔ b.source ∈ i.reachable entries ∧
      ∃ link ∈ i.links b.source, link.target = some b.target ∧ b.dependency = link.dependency ∧
        b.triggers = i.triggersOf b.source b.dependency b.target ∧ b.triggers.isEmpty = false := by
  constructor
  · intro listed
    obtain ⟨k, reachable, listed⟩ := List.mem_flatMap.1 listed
    obtain ⟨link, member, made⟩ := List.mem_filterMap.1 listed
    obtain ⟨target, resolved, made⟩ := Option.bind_eq_some_iff.1 made
    simp only [] at made
    split at made
    · cases made
    · rename_i some
      cases made
      exact ⟨reachable, link, member, resolved, rfl, rfl, by simpa using some⟩
  · rintro ⟨reachable, link, member, resolved, dependency, triggers, some⟩
    refine List.mem_flatMap.2 ⟨b.source, reachable, List.mem_filterMap.2 ⟨link, member, ?_⟩⟩
    rw [resolved, Option.bind_some]
    simp only [← dependency, ← triggers, some, Bool.false_eq_true, if_false]

/-- A dependency starts one bundle at most. -/
theorem DeclaredOnce.boundary_eq (declared : i.DeclaredOnce known) {a b : Boundary}
    (left : a ∈ i.boundaries entries) (right : b ∈ i.boundaries entries)
    (same : a.dependency.id = b.dependency.id) : a = b := by
  obtain ⟨_, link, member, resolved, isDependency, triggers, _⟩ := mem_boundaries.1 left
  obtain ⟨_, other, memberToo, resolvedToo, isDependencyToo, triggersToo, _⟩ :=
    mem_boundaries.1 right
  rw [isDependency, isDependencyToo] at same
  obtain ⟨sameSource, rfl⟩ := declared.link_eq member memberToo same
  have sameTarget := Option.some.inj (resolved.symm.trans resolvedToo)
  have sameDependency := isDependency.trans isDependencyToo.symm
  rw [sameSource, sameTarget, sameDependency] at triggers
  obtain ⟨_, _, _, _⟩ := a
  obtain ⟨_, _, _, _⟩ := b
  simp only at sameSource sameTarget sameDependency triggers triggersToo
  rw [sameSource, sameTarget, sameDependency, triggers, triggersToo]

theorem creation_known (declared : i.DeclaredOnce known)
    (entriesKnown : ∀ e ∈ entries, known e.dependency) {c : Creation}
    (listed : c ∈ i.creations entries) : known c.dependency := by
  rcases List.mem_append.1 listed with listed | listed
  · obtain ⟨e, member, rfl⟩ := List.mem_map.1 listed
    exact entriesKnown e member
  · obtain ⟨b, member, rfl⟩ := List.mem_map.1 listed
    obtain ⟨_, link, isLink, _, isDependency, _⟩ := mem_boundaries.1 member
    show known b.dependency
    rw [isDependency]
    exact declared.linked isLink

theorem asset_eq_ok_iff {k : AssetKey} {asset : Asset} :
    i.asset k = .ok asset ↔ i.asset? k = some asset := by
  unfold Index.asset
  cases i.asset? k with
  | none => simp
  | some other => simp

namespace Agree

theorem perm_reachable (agree : i.Agree j) (perm : entries.Perm others) :
    (i.reachable entries).Perm (j.reachable others) := by
  apply Walk.perm_explore (fun _ some => mem_keys_of_filterMap some)
    (fun _ some => mem_keys_of_filterMap some) fun _ => (perm.map Entry.asset).mem_iff
  intro k target
  exact ((agree.links k).filterMap Link.target).mem_iff

theorem perm_boundaries (agree : i.Agree j) (perm : entries.Perm others) :
    (i.boundaries entries).Perm (j.boundaries others) := by
  refine (agree.perm_reachable perm).flatMap ?_
  intro k _
  unfold boundariesOf
  rw [agree.triggersOf_eq]
  exact (agree.links k).filterMap _

theorem perm_creations (agree : i.Agree j) (perm : entries.Perm others) :
    (i.creations entries).Perm (j.creations others) :=
  (perm.map _).append ((agree.perm_boundaries perm).map _)

/-- Roots do not depend on the order of what creates them, if among what creates a root the ids tell
the dependencies apart. -/
theorem roots_eq_of_perm (agree : i.Agree j) (perm : entries.Perm others)
    (apart : ∀ c ∈ i.creations entries, ∀ d ∈ i.creations entries, c.asset = d.asset →
      c.dependency.id = d.dependency.id → c.dependency = d.dependency) :
    i.roots entries = j.roots others := by
  have created := agree.perm_creations perm
  apply KeyMap.ext
  intro k
  have sameRoot (a : Asset) : Root.ofCreations a ((i.creations entries).filter (·.asset = k)) =
      Root.ofCreations a ((j.creations others).filter (·.asset = k)) := by
    apply Root.ofCreations_eq_of_perm a (created.filter _)
    intro c left d right
    obtain ⟨left, isLeft⟩ := List.mem_filter.1 left
    obtain ⟨right, isRight⟩ := List.mem_filter.1 right
    exact apart c left d right ((of_decide_eq_true isLeft).trans (of_decide_eq_true isRight).symm)
  rw [get?_roots, get?_roots, agree.asset?_eq]
  simp only [(created.map Creation.asset).mem_iff, sameRoot]

theorem roots_eq (agree : i.Agree j) (declared : i.DeclaredOnce known)
    (entriesKnown : ∀ e ∈ entries, known e.dependency) (perm : entries.Perm others) :
    i.roots entries = j.roots others := by
  apply agree.roots_eq_of_perm perm
  intro c left d right _
  exact declared.apart (creation_known declared entriesKnown left)
    (creation_known declared entriesKnown right)

theorem sortedBoundaries_eq (agree : i.Agree j) (declared : i.DeclaredOnce known)
    (perm : entries.Perm others) : i.sortedBoundaries entries = j.sortedBoundaries others := by
  apply arrange_eq_of_perm (agree.perm_boundaries perm)
  intro a left b right same
  exact declared.boundary_eq left right (Prod.mk.inj same).2

theorem collectRoots_eq (agree : i.Agree j) (declared : i.DeclaredOnce known)
    (entriesKnown : ∀ e ∈ entries, known e.dependency) (perm : entries.Perm others) :
    i.collectRoots entries = j.collectRoots others := by
  have decisions : i.boundaryDecision = j.boundaryDecision := by
    funext b
    rw [boundaryDecision, boundaryDecision, agree.idOf_eq]
  unfold collectRoots
  rw [agree.roots_eq declared entriesKnown perm, agree.sortedBoundaries_eq declared perm, decisions,
    (agree.perm_reachable perm).length_eq]

variable {roots : KeyMap AssetKey Root}

theorem perm_stepsOf (agree : i.Agree j) (key : AssetKey) (root : Root) (asset : AssetKey) :
    (i.stepsOf roots key root asset).Perm (j.stepsOf roots key root asset) := by
  have sameStep : i.step = j.step := by
    funext roots key root asset dependency target
    rw [step, step, agree.triggersOf_eq]
  unfold stepsOf
  rw [sameStep]
  exact (agree.links asset).filterMap _

theorem enters_eq (agree : i.Agree j) (key : AssetKey) (root : Root) :
    i.Enters roots key root = j.Enters roots key root := by
  funext asset target
  exact propext (agree.perm_stepsOf key root asset).mem_iff

theorem perm_walk (agree : i.Agree j) (key : AssetKey) (root : Root) :
    (i.walk roots key root).Perm (j.walk roots key root) := by
  refine (List.perm_ext_iff_of_nodup (Walk.nodup_explore _ _ _) (Walk.nodup_explore _ _ _)).2 ?_
  intro x
  have left : x ∈ i.walk roots key root ↔ _ := mem_walk
  have right : x ∈ j.walk roots key root ↔ _ := mem_walk
  rw [agree.enters_eq] at left
  exact left.trans right.symm

theorem perm_walkSteps (agree : i.Agree j) (key : AssetKey) (root : Root) :
    (i.walkSteps roots key root).Perm (j.walkSteps roots key root) :=
  (agree.perm_walk key root).flatMap fun asset _ => agree.perm_stepsOf key root asset

end Agree

/-- An edge is named by the root that loads it and its dependency. -/
theorem DeclaredOnce.edge_eq {roots : KeyMap AssetKey Root} (declared : i.DeclaredOnce known)
    {e f : BundleEdge} (left : e ∈ i.bundleEdges roots) (right : f ∈ i.bundleEdges roots)
    (sameSource : e.source = f.source) (sameId : e.dependencyId = f.dependencyId) : e = f := by
  obtain ⟨link, member, resolved, isId, triggers, _⟩ := link_of_mem_bundleEdges left
  obtain ⟨other, memberToo, resolvedToo, isIdToo, triggersToo, _⟩ := link_of_mem_bundleEdges right
  rw [isId, isIdToo] at sameId
  obtain ⟨sameAsset, rfl⟩ := declared.link_eq member memberToo sameId
  have sameTarget := Option.some.inj (resolved.symm.trans resolvedToo)
  rw [sameAsset, sameTarget] at triggers
  have sameTriggers := triggers.trans triggersToo.symm
  have sameDependency := isId.trans isIdToo.symm
  obtain ⟨_, _, _, _, _⟩ := e
  obtain ⟨_, _, _, _, _⟩ := f
  simp only at sameSource sameTarget sameAsset sameDependency sameTriggers
  rw [sameSource, sameTarget, sameAsset, sameDependency, sameTriggers]

namespace Agree

variable {roots : KeyMap AssetKey Root}

theorem bundleEdges_eq (agree : i.Agree j) (declared : i.DeclaredOnce known) :
    i.bundleEdges roots = j.bundleEdges roots := by
  unfold bundleEdges
  refine congrArg dropRepeated (arrange_eq_of_perm ?_ ?_)
  · refine List.Perm.flatMap_left _ ?_
    intro e _
    exact (agree.perm_walkSteps e.1 e.2).filterMap _
  · intro e left f right same
    obtain ⟨sameSource, rest⟩ := Prod.mk.inj same
    have leftEdge : e ∈ i.bundleEdges roots :=
      mem_dropRepeated.2 ((perm_arrange _ _).mem_iff.2 left)
    have rightEdge : f ∈ i.bundleEdges roots :=
      mem_dropRepeated.2 ((perm_arrange _ _).mem_iff.2 right)
    exact declared.edge_eq leftEdge rightEdge sameSource (Prod.mk.inj rest).2

theorem reusedRoots_eq (agree : i.Agree j) : i.reusedRoots roots = j.reusedRoots roots := by
  apply KeySet.ext
  intro pair
  obtain ⟨a, b⟩ := pair
  rw [mem_reusedRoots, mem_reusedRoots]
  simp only [agree.enters_eq, (agree.perm_stepsOf _ _ _).mem_iff]

theorem reach_eq (agree : i.Agree j) : i.reach roots = j.reach roots := by
  apply Reach.ext
  intro key x
  rw [mem_reachedBy, mem_reachedBy]
  simp only [agree.enters_eq]

theorem walkRoots_eq (agree : i.Agree j) (declared : i.DeclaredOnce known) :
    i.walkRoots roots = j.walkRoots roots := by
  have sameWalks : i.walks roots = j.walks roots := by
    rw [walks, walks, agree.bundleEdges_eq declared, agree.reusedRoots_eq, agree.reach_eq]
  have decisions : i.reuseDecision = j.reuseDecision := by
    funext pair
    rw [reuseDecision, reuseDecision, agree.idOf_eq]
  unfold walkRoots
  rw [sameWalks, decisions]

end Agree

end Index

end CodeSplit
