import CodeSplit.Proofs.BundleStore

/-!
What the nodes of a bundle graph hold. Bundles that are added under one id become one bundle: the
first of them decides what it holds and how it behaves, and all of them make it their entry point.
Groups and edges are added without touching a bundle, and no bundle is listed twice.
-/
namespace CodeSplit

open Digest (IsDigest)

namespace Bundle

variable {b c : Bundle} {bs : List Bundle} {x : String}

theorem mem_entryAssetIds_merge :
    x ∈ (b.merge c).entryAssetIds ↔ x ∈ b.entryAssetIds ∨ x ∈ c.entryAssetIds := by
  have append (start : List String) : x ∈ c.entryAssetIds.foldl
      (fun entries e => if e ∈ entries then entries else entries ++ [e]) start ↔
        x ∈ start ∨ x ∈ c.entryAssetIds := by
    induction c.entryAssetIds generalizing start with
    | nil => simp
    | cons e rest ih =>
      rw [List.foldl_cons, ih, List.mem_cons]
      split
      · rename_i known
        constructor
        · rintro (old | later)
          · exact .inl old
          · exact .inr (.inr later)
        · rintro (old | rfl | later)
          · exact .inl old
          · exact .inl known
          · exact .inr later
      · simp [or_assoc]
  show x ∈ arrange KeyOrder.before _ ↔ _
  rw [(perm_arrange _ _).mem_iff]
  exact append b.entryAssetIds

/-- The bundle that bundles with one id become, in the order in which they are added. -/
def gather : List Bundle → Option Bundle
  | [] => none
  | b :: rest => some (rest.foldl merge b)

theorem gather_append_singleton (bs : List Bundle) (b : Bundle) :
    gather (bs ++ [b]) = some (((gather bs).map (·.merge b)).getD b) := by
  cases bs with
  | nil => rfl
  | cons first rest => simp [gather]

/-- What is the same before and after a merge. -/
structure SameContents (b c : Bundle) : Prop where
  id : c.id = b.id
  fileType : c.fileType = b.fileType
  assetIds : c.assetIds = b.assetIds
  behavior : c.behavior = b.behavior

theorem sameContents_merge (b c : Bundle) : b.SameContents (b.merge c) := ⟨rfl, rfl, rfl, rfl⟩

theorem SameContents.trans {d : Bundle} (first : b.SameContents c) (second : c.SameContents d) :
    b.SameContents d :=
  ⟨second.id.trans first.id, second.fileType.trans first.fileType,
    second.assetIds.trans first.assetIds, second.behavior.trans first.behavior⟩

theorem SameContents.isInline (same : b.SameContents c) : c.isInline = b.isInline := by
  rw [Bundle.isInline, same.behavior, Bundle.isInline]

theorem sameContents_foldl_merge (b : Bundle) (rest : List Bundle) :
    b.SameContents (rest.foldl merge b) ∧ ∀ x, x ∈ (rest.foldl merge b).entryAssetIds ↔
      x ∈ b.entryAssetIds ∨ ∃ c ∈ rest, x ∈ c.entryAssetIds := by
  induction rest generalizing b with
  | nil => simpa using (⟨rfl, rfl, rfl, rfl⟩ : b.SameContents b)
  | cons c rest ih =>
    obtain ⟨same, entries⟩ := ih (b.merge c)
    refine ⟨(sameContents_merge b c).trans same, ?_⟩
    intro x
    rw [List.foldl_cons, entries, mem_entryAssetIds_merge, List.exists_mem_cons_iff, or_assoc]

/-- The first bundle decides on the contents, and the entry points are those of all. -/
theorem gather_eq_some (made : gather bs = some c) :
    ∃ first, bs.head? = some first ∧ first.SameContents c ∧
      ∀ x, x ∈ c.entryAssetIds ↔ ∃ b ∈ bs, x ∈ b.entryAssetIds := by
  cases bs with
  | nil => cases made
  | cons first rest =>
    cases made
    obtain ⟨same, entries⟩ := sameContents_foldl_merge first rest
    refine ⟨first, rfl, same, ?_⟩
    intro x
    rw [entries, List.exists_mem_cons_iff]

theorem exists_gather (listed : b ∈ bs) : ∃ c, gather bs = some c := by
  cases bs with
  | nil => cases listed
  | cons first rest => exact ⟨_, rfl⟩

end Bundle

namespace BundleGraph

variable {g h next : BundleGraph} {n m : NodeId} {key id : String} {bundle b : Bundle}

section Bundles

/-- The bundle of a key is at the node of the key. -/
theorem WellKeyed.bundle?_eq (keyed : g.WellKeyed) (found : g.keys[n]? = some key) :
    g.bundle? key = g.bundleAt? n := by
  rw [bundle?, keyed.nodeOfKey?_eq_some_iff.2 found, Option.bind_some]

theorem WellKeyed.bundle?_eq_none (keyed : g.WellKeyed) (absent : key ∉ g.keys) :
    g.bundle? key = none := by
  unfold bundle?
  cases found : g.nodeOfKey? key with
  | none => rfl
  | some n => exact absurd (List.mem_of_getElem? (keyed.nodeOfKey?_eq_some_iff.1 found)) absent

theorem bundle?_empty (id : String) : empty.bundle? id = none := by
  unfold bundle?
  cases found : empty.nodeOfKey? id with
  | none => rfl
  | some n =>
    cases n with
    | zero => rfl
    | succ n => rfl

/-- Two graphs that agree on the node of a key have the same bundle there. -/
theorem bundle?_congr (keyed : g.WellKeyed) (laterKeyed : h.WellKeyed)
    (sameKeys : ∀ n : NodeId, h.keys[n]? = some key ↔ g.keys[n]? = some key)
    (sameNodes : ∀ n : NodeId, g.keys[n]? = some key → h.nodes[n]? = g.nodes[n]?) :
    h.bundle? key = g.bundle? key := by
  by_cases listed : key ∈ g.keys
  · obtain ⟨n, found⟩ := List.mem_iff_getElem?.1 listed
    rw [keyed.bundle?_eq found, laterKeyed.bundle?_eq ((sameKeys n).2 found)]
    unfold bundleAt? node?
    rw [sameNodes n found]
  · have absent : key ∉ h.keys := by
      intro present
      obtain ⟨n, found⟩ := List.mem_iff_getElem?.1 present
      exact listed (List.mem_of_getElem? ((sameKeys n).1 found))
    rw [keyed.bundle?_eq_none listed, laterKeyed.bundle?_eq_none absent]

/-- A new bundle behind the other nodes is found under its id. -/
theorem bundle?_concat (keyed : g.WellKeyed)
    (laterKeyed : WellKeyed { g with nodes := g.nodes ++ [.bundle bundle] }) (id : String) :
    bundle? { g with nodes := g.nodes ++ [.bundle bundle] } id =
      if bundle.id = id then some bundle else g.bundle? id := by
  have keys : BundleGraph.keys { g with nodes := g.nodes ++ [.bundle bundle] } =
      g.keys ++ [bundle.id] := by
    simp [BundleGraph.keys, Node.key]
  have length : g.keys.length = g.nodes.length := List.length_map _
  split
  · rename_i same
    subst same
    rw [laterKeyed.bundle?_eq (n := g.nodes.length) (by
      rw [keys, ← length, List.getElem?_concat_length])]
    exact bundleAt?_eq_some_iff.2 List.getElem?_concat_length
  · rename_i other
    refine bundle?_congr keyed laterKeyed ?_ ?_
    · intro n
      rw [keys, List.getElem?_append]
      split
      · rfl
      · rename_i outside
        refine iff_of_false ?_ (fun found => outside (List.getElem?_eq_some_iff.1 found).1)
        intro found
        exact other (List.mem_singleton.1 (List.mem_of_getElem? found)).symm
    · intro n found
      obtain ⟨node, inside, _⟩ := getElem?_keys.1 found
      exact List.getElem?_append_left (List.getElem?_eq_some_iff.1 inside).1

/-- Merging a bundle into the one of its id leaves the others as they are. -/
theorem bundle?_merge {existing : Bundle} (keyed : g.WellKeyed)
    (isBundle : g.nodes[n]? = some (.bundle existing)) (sameId : existing.id = bundle.id)
    (laterKeyed : WellKeyed { g with nodes := g.nodes.set n (.bundle (existing.merge bundle)) })
    (id : String) :
    bundle? { g with nodes := g.nodes.set n (.bundle (existing.merge bundle)) } id =
      if bundle.id = id then some (existing.merge bundle) else g.bundle? id := by
  have sameKeys := keys_merge isBundle bundle
  have isKey : g.keys[n]? = some bundle.id := getElem?_keys.2 ⟨_, isBundle, sameId⟩
  split
  · rename_i same
    subst same
    rw [laterKeyed.bundle?_eq (sameKeys ▸ isKey)]
    exact bundleAt?_eq_some_iff.2 (List.getElem?_set_self (List.getElem?_eq_some_iff.1 isBundle).1)
  · rename_i other
    refine bundle?_congr keyed laterKeyed ?_ ?_
    · intro n
      exact iff_of_eq (congrArg (·[n]? = some id) sameKeys)
    · intro m isOther
      refine List.getElem?_set_ne ?_
      rintro rfl
      exact other (Option.some_inj.1 (isKey.symm.trans isOther))

/-- Adding a bundle changes the bundle of its id only. -/
theorem bundle?_addBundle (keyed : g.WellKeyed) (digest : IsDigest bundle.id)
    (success : g.addBundle bundle = .ok (next, n)) (id : String) :
    next.bundle? id =
      if bundle.id = id then some (((g.bundle? id).map (·.merge bundle)).getD bundle)
      else g.bundle? id := by
  obtain ⟨grows, _, _⟩ := addBundle_spec keyed digest success
  unfold addBundle at success
  split at success
  · rename_i new
    have absent := nodeOfKey?_eq_none new
    cases success
    refine (bundle?_concat keyed grows.keyed id).trans ?_
    split
    · rename_i same
      rw [← same, keyed.bundle?_eq_none absent]
      rfl
    · rfl
  · rename_i place found
    have isKey := keyed.nodeOfKey?_eq_some_iff.1 found
    split at success
    · rename_i existing isBundle
      split at success
      · cases success
        obtain ⟨node, isNode, sameId⟩ := getElem?_keys.1 isKey
        cases isBundle.symm.trans isNode
        refine (bundle?_merge keyed isBundle sameId grows.keyed id).trans ?_
        split
        · rename_i same
          rw [← same, keyed.bundle?_eq isKey, bundleAt?_eq_some_iff.2 isBundle]
          rfl
        · rfl
      · cases success
    · cases success

/-- A bundle can be added if the bundle that has its id holds the same assets, and only then. -/
theorem addBundle_ok_iff (keyed : g.WellKeyed) (digest : IsDigest bundle.id) :
    (∃ next n, g.addBundle bundle = .ok (next, n)) ↔
      ∀ b, g.bundle? bundle.id = some b → b.assetIds = bundle.assetIds := by
  unfold addBundle
  cases found : g.nodeOfKey? bundle.id with
  | none =>
    rw [keyed.bundle?_eq_none (nodeOfKey?_eq_none found)]
    refine iff_of_true ⟨_, _, rfl⟩ ?_
    intro b none
    cases none
  | some n =>
    have isKey := keyed.nodeOfKey?_eq_some_iff.1 found
    obtain ⟨existing, isBundle, _⟩ := keyed.exists_bundleAt? isKey digest
    have isNode := bundleAt?_eq_some_iff.1 isBundle
    simp only [keyed.bundle?_eq isKey, isBundle, node?, isNode, Option.some_inj, forall_eq']
    split
    · rename_i same
      simp [same]
    · rename_i differ
      simp [differ]

/-- No bundle changes what it holds when another is added, whose assets are then in the graph. -/
theorem assetIds_addBundle (keyed : g.WellKeyed) (digest : IsDigest bundle.id)
    (success : g.addBundle bundle = .ok (next, n)) :
    (∀ id b, g.bundle? id = some b → ∃ c, next.bundle? id = some c ∧ c.assetIds = b.assetIds) ∧
      ∃ c, next.bundle? bundle.id = some c ∧ c.assetIds = bundle.assetIds := by
  have after := bundle?_addBundle keyed digest success
  constructor
  · intro id b found
    rw [after, found]
    split
    · exact ⟨_, rfl, rfl⟩
    · exact ⟨b, rfl, rfl⟩
  · rw [after, if_pos rfl]
    cases found : g.bundle? bundle.id with
    | none => exact ⟨bundle, rfl, rfl⟩
    | some old => exact ⟨_, rfl, (addBundle_ok_iff keyed digest).1 ⟨next, n, success⟩ old found⟩

end Bundles

section Planned

variable {planned : List (BundleOrigin × Except Fault Bundle)} {written : List WrittenBundle}

/-- The bundles that could be made. -/
def made (planned : List (BundleOrigin × Except Fault Bundle)) : List Bundle :=
  planned.filterMap fun entry => entry.2.toOption

theorem mem_made : b ∈ made planned ↔ ∃ origin, (origin, .ok b) ∈ planned := by
  unfold made
  rw [List.mem_filterMap]
  constructor
  · rintro ⟨⟨origin, result⟩, listed, isMade⟩
    exact ⟨origin, mem_toOption_iff.1 isMade ▸ listed⟩
  · rintro ⟨origin, listed⟩
    exact ⟨_, listed, rfl⟩

/-- After adding bundles, the graph has under each id what all bundles of this id become. -/
theorem addBundles_gathers (keyed : g.WellKeyed)
    (digests : ∀ origin b, (origin, .ok b) ∈ planned → IsDigest b.id) {before : List Bundle}
    (gathered : ∀ id, g.bundle? id = Bundle.gather (before.filter fun b => b.id = id))
    (success : addBundles planned g = (next, .ok written)) (id : String) :
    next.bundle? id = Bundle.gather ((before ++ made planned).filter fun b => b.id = id) := by
  induction planned generalizing g written before with
  | nil =>
    cases success
    simpa [made] using gathered id
  | cons entry rest ih =>
    obtain ⟨origin, planned⟩ := entry
    obtain ⟨bundle, middle, node, others, rfl, stored, result, _⟩ := addBundles_cons_ok success
    have digest := digests origin bundle List.mem_cons_self
    obtain ⟨grows, _, _⟩ := addBundle_spec keyed digest stored
    have step : ∀ id, middle.bundle? id =
        Bundle.gather ((before ++ [bundle]).filter fun b => b.id = id) := by
      intro id
      rw [bundle?_addBundle keyed digest stored, List.filter_append]
      split
      · rename_i same
        simp [same, gathered id, Bundle.gather_append_singleton]
      · rename_i other
        simp [other, gathered id]
    have later := ih grows.keyed
      (fun origin b listed => digests origin b (List.mem_cons_of_mem _ listed)) step result
    simpa [made, Except.toOption] using later

/-- Bundles with one id that are added hold the same assets. -/
theorem addBundles_agree (keyed : g.WellKeyed)
    (digests : ∀ origin b, (origin, .ok b) ∈ planned → IsDigest b.id)
    (success : addBundles planned g = (next, .ok written)) :
    (∀ id b, g.bundle? id = some b → ∃ c, next.bundle? id = some c ∧ c.assetIds = b.assetIds) ∧
      ∀ b ∈ made planned, ∃ c, next.bundle? b.id = some c ∧ c.assetIds = b.assetIds := by
  induction planned generalizing g written with
  | nil =>
    cases success
    exact ⟨fun id b found => ⟨b, found, rfl⟩, fun b none => absurd none List.not_mem_nil⟩
  | cons entry rest ih =>
    obtain ⟨origin, planned⟩ := entry
    obtain ⟨bundle, middle, node, others, rfl, stored, result, _⟩ := addBundles_cons_ok success
    have digest := digests origin bundle List.mem_cons_self
    obtain ⟨grows, _, _⟩ := addBundle_spec keyed digest stored
    obtain ⟨stays, added⟩ := assetIds_addBundle keyed digest stored
    obtain ⟨keeps, adds⟩ := ih grows.keyed
      (fun origin b listed => digests origin b (List.mem_cons_of_mem _ listed)) result
    have later {id : String} {b : Bundle}
        (found : ∃ c, middle.bundle? id = some c ∧ c.assetIds = b.assetIds) :
        ∃ c, next.bundle? id = some c ∧ c.assetIds = b.assetIds := by
      obtain ⟨c, found, same⟩ := found
      obtain ⟨d, foundLater, sameLater⟩ := keeps id c found
      exact ⟨d, foundLater, sameLater.trans same⟩
    refine ⟨fun id b found => later (stays id b found), ?_⟩
    intro b listed
    rcases List.mem_cons.1 listed with rfl | listed
    · exact later added
    · exact adds b listed

/-- Every bundle that is added has its place under its id. -/
theorem exists_written (success : addBundles planned g = (next, .ok written))
    {origin : BundleOrigin} (listed : (origin, .ok b) ∈ planned) :
    ∃ d ∈ written, d.origin = origin ∧ d.id = b.id := by
  induction planned generalizing g written with
  | nil => cases listed
  | cons entry rest ih =>
    obtain ⟨bundle, middle, node, others, made, _, result, rfl⟩ := addBundles_cons_ok success
    rcases List.mem_cons.1 listed with rfl | later
    · cases made
      exact ⟨_, List.mem_cons_self, rfl, rfl⟩
    · obtain ⟨d, member, same⟩ := ih result later
      exact ⟨d, List.mem_cons_of_mem _ member, same⟩

/-- All bundles can be added if they could be made and those with one id hold the same assets. -/
theorem exists_addBundles (keyed : g.WellKeyed)
    (all : ∀ entry ∈ planned, ∃ b, entry.2 = .ok b)
    (digests : ∀ origin b, (origin, .ok b) ∈ planned → IsDigest b.id)
    (agree : ∀ b ∈ made planned, ∀ c ∈ made planned, b.id = c.id → b.assetIds = c.assetIds)
    (stored : ∀ b ∈ made planned, ∀ c, g.bundle? b.id = some c → c.assetIds = b.assetIds) :
    ∃ next written, addBundles planned g = (next, .ok written) := by
  induction planned generalizing g with
  | nil => exact ⟨g, [], rfl⟩
  | cons entry rest ih =>
    obtain ⟨origin, result⟩ := entry
    obtain ⟨bundle, rfl⟩ := all _ List.mem_cons_self
    have digest := digests origin bundle List.mem_cons_self
    have first : bundle ∈ made ((origin, .ok bundle) :: rest) :=
      mem_made.2 ⟨origin, List.mem_cons_self⟩
    have later {b : Bundle} (listed : b ∈ made rest) :
        b ∈ made ((origin, .ok bundle) :: rest) := by
      obtain ⟨other, listed⟩ := mem_made.1 listed
      exact mem_made.2 ⟨other, List.mem_cons_of_mem _ listed⟩
    obtain ⟨middle, node, added⟩ := (addBundle_ok_iff keyed digest).2 (stored bundle first)
    obtain ⟨grows, _, _⟩ := addBundle_spec keyed digest added
    obtain ⟨next, written, rests⟩ := ih grows.keyed
      (fun entry listed => all entry (List.mem_cons_of_mem _ listed))
      (fun origin b listed => digests origin b (List.mem_cons_of_mem _ listed))
      (fun b left c right => agree b (later left) c (later right)) (by
        intro b listed c found
        rw [bundle?_addBundle keyed digest added] at found
        split at found
        · rename_i same
          -- the bundle under this id keeps its assets when another is merged into it
          cases old : g.bundle? b.id with
          | none =>
            rw [old] at found
            cases found
            exact agree bundle first b (later listed) same
          | some d =>
            rw [old] at found
            cases found
            exact stored b (later listed) d old
        · exact stored b (later listed) c found)
    refine ⟨next, ⟨origin, bundle.id, node⟩ :: written, ?_⟩
    rw [addBundles, show ((Except.ok bundle : Except Fault Bundle) >>= fun bundle =>
      (·, bundle.id) <$> g.addBundle bundle) = .ok ((middle, node), bundle.id) from
        congrArg ((·, bundle.id) <$> ·) added]
    simp only [rests]
    rfl

end Planned

section Groups

variable {w : WrittenPlan} {edges : List Edge}

/-- Nodes are added behind the others, and no edge is added twice. -/
structure Extends (g h : BundleGraph) : Prop where
  nodes : g.nodes <+: h.nodes
  distinct : g.edges.Nodup → h.edges.Nodup

theorem Extends.refl (g : BundleGraph) : Extends g g := ⟨List.prefix_refl _, id⟩

theorem Extends.trans (first : Extends g h) (second : Extends h next) : Extends g next :=
  ⟨first.nodes.trans second.nodes, second.distinct ∘ first.distinct⟩

theorem Extends.bundleAt? (more : Extends g h) (found : g.bundleAt? n = some b) :
    h.bundleAt? n = some b := by
  rw [bundleAt?_eq_some_iff] at found ⊢
  obtain ⟨added, same⟩ := more.nodes
  rw [← same]
  exact List.getElem?_append_left (List.getElem?_eq_some_iff.1 found).1 ▸ found

theorem extends_addGroup (g : BundleGraph) (group : BundleGroup) :
    Extends g (g.addGroup group).1 := by
  unfold addGroup
  split
  · exact .refl g
  · exact ⟨List.prefix_append _ _, id⟩

theorem extends_linkAll (g : BundleGraph) (edges : List Edge) : Extends g (g.linkAll edges) := by
  refine ⟨(nodes_linkAll edges).symm ▸ List.prefix_refl _, fun distinct => ?_⟩
  refine List.foldlRecOn (motive := fun (h : BundleGraph) => h.edges.Nodup) edges _ distinct ?_
  intro h current e _
  unfold link
  split
  · exact current
  · rename_i new
    refine current.append (List.nodup_singleton _) ?_
    intro other listed same
    rw [List.mem_singleton.1 same] at listed
    exact new (.inr listed)

theorem extends_writeGroup (g : BundleGraph) (w : WrittenPlan) (key : AssetKey) (root : Root) :
    Extends g (g.writeGroup w key root).1 := by
  unfold writeGroup
  exact (extends_addGroup g _).trans (extends_linkAll _ _)

theorem extends_writeGroups (roots : List AssetKey) (g : BundleGraph) :
    Extends g (writeGroups w roots g).1 := by
  induction roots generalizing g with
  | nil => exact .refl g
  | cons key roots ih =>
    rw [writeGroups]
    split
    · exact .refl g
    · rename_i root _
      have first := extends_writeGroup g w key root
      split
      · rename_i made
        rwa [made] at first
      · rename_i middle node made
        rw [made] at first
        exact first.trans (ih middle)

/-- A node leads to no bundle twice. -/
theorem WellKeyed.nodup_bundlesAlong (keyed : g.WellKeyed) (distinct : g.edges.Nodup)
    (key : String) (edgeType : EdgeType) :
    ((g.bundlesAlong key edgeType).map Bundle.id).Nodup := by
  unfold bundlesAlong
  split
  · rename_i n _
    have targets : (g.outgoing n edgeType).Nodup := by
      unfold outgoing
      refine List.Nodup.map_on ?_ (distinct.filter _)
      rintro ⟨s, t, type⟩ left ⟨s', t', type'⟩ right same
      simp only [List.mem_filter, decide_eq_true_eq] at left right
      obtain ⟨_, rfl, rfl⟩ := left
      obtain ⟨_, rfl, rfl⟩ := right
      cases same
      rfl
    rw [List.map_filterMap]
    refine targets.filterMap ?_
    intro a c id left right
    obtain ⟨b, isLeft, rfl⟩ := Option.map_eq_some_iff.1 left
    obtain ⟨d, isRight, same⟩ := Option.map_eq_some_iff.1 right
    have rightKey := getElem?_keys_of_bundleAt? isRight
    rw [same] at rightKey
    exact keyed.eq_of_key (getElem?_keys_of_bundleAt? isLeft) rightKey
  · exact List.nodup_nil

end Groups

end BundleGraph

end CodeSplit
