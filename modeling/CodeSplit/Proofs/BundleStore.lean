import CodeSplit.BundleGraph.Writer
import CodeSplit.Proofs.Keyed
import CodeSplit.Proofs.Outcomes

/-!
The nodes of a bundle graph by their keys. Bundles have digests for keys, and groups have keys that
are no digests, so that a key tells what kind of node it stands for. Nodes are only added behind the
others or merged, so that a number stands for the same key for ever, and looking up the key of a
node finds that node.
-/
namespace CodeSplit

namespace Digest

/-- The text is the spelling of a hash. -/
def IsDigest (text : String) : Prop := ∃ hash, text = spell hash

theorem mem_hexDigits {c : Char} {width n : Nat} (member : c ∈ hexDigits width n) :
    c ∈ "0123456789abcdef".toList := by
  induction width generalizing n with
  | zero => cases member
  | succ width ih =>
    rw [hexDigits] at member
    rcases List.mem_append.1 member with earlier | last
    · exact ih earlier
    · rw [List.mem_singleton.1 last, hexDigit, List.getD_eq_getElem?_getD]
      cases found : "0123456789abcdef".toList[n % 16]? with
      | none => decide
      | some digit => exact List.mem_of_getElem? found

theorem IsDigest.mem {text : String} (digest : IsDigest text) {c : Char}
    (member : c ∈ text.toList) : c ∈ "0123456789abcdef".toList := by
  obtain ⟨hash, rfl⟩ := digest
  rw [spell, String.toList_ofList] at member
  exact mem_hexDigits member

end Digest

namespace BundleGraph

open Digest (IsDigest)

def IsGroupId (text : String) : Prop := ∃ rest, text = "bundle_group:" ++ rest

theorem not_isGroupId_of_isDigest {text : String} (digest : IsDigest text) : ¬IsGroupId text := by
  rintro ⟨rest, rfl⟩
  have member : 'u' ∈ ("bundle_group:" ++ rest).toList := by
    rw [String.toList_append]
    exact List.mem_append_left _ (by decide)
  exact absurd (digest.mem member) (by decide)

theorem not_isDigest_rootKey : ¬IsDigest rootKey := by
  intro digest
  exact absurd (digest.mem (c := '@') (by decide)) (by decide)

theorem not_isGroupId_rootKey : ¬IsGroupId rootKey := by
  rintro ⟨rest, same⟩
  have first := congrArg (fun text => text.toList.head?) same
  rw [String.toList_append] at first
  exact absurd first (by simp [rootKey])

/-- The key of the node is one for its kind. -/
def Node.WellNamed : Node → Prop
  | .root => True
  | .group g => IsGroupId g.id
  | .bundle b => IsDigest b.id

/-- The keys of the nodes, by their numbers. -/
def keys (g : BundleGraph) : List String := g.nodes.map Node.key

structure WellKeyed (g : BundleGraph) : Prop where
  distinct : g.keys.Nodup
  root : g.nodes[rootNode]? = some .root
  named : ∀ node ∈ g.nodes, node.WellNamed

theorem wellKeyed_empty : empty.WellKeyed := by
  refine ⟨List.nodup_singleton _, rfl, ?_⟩
  intro node listed
  rw [List.mem_singleton.1 listed]
  trivial

variable {g h next : BundleGraph} {n m : NodeId} {key : String} {edgeType : EdgeType}

section Lookup

theorem getElem?_keys :
    g.keys[n]? = some key ↔ ∃ node, g.nodes[n]? = some node ∧ node.key = key := by
  rw [keys, List.getElem?_map, Option.map_eq_some_iff]

/-- Looking up the key of a node finds it. -/
theorem nodeOfKey?_eq_some_iff (distinct : g.keys.Nodup) :
    g.nodeOfKey? key = some n ↔ g.keys[n]? = some key := by
  rw [getElem?_keys]
  exact findIdx?_eq_some_iff_of_nodup distinct

theorem WellKeyed.nodeOfKey?_eq_some_iff (keyed : g.WellKeyed) :
    g.nodeOfKey? key = some n ↔ g.keys[n]? = some key :=
  BundleGraph.nodeOfKey?_eq_some_iff keyed.distinct

/-- A key that is not found is new. -/
theorem nodeOfKey?_eq_none (absent : g.nodeOfKey? key = none) : key ∉ g.keys := by
  intro listed
  obtain ⟨node, isNode, rfl⟩ := List.mem_map.1 listed
  unfold nodeOfKey? at absent
  simpa using List.findIdx?_eq_none_iff.1 absent node isNode

theorem bundleAt?_eq_some_iff {b : Bundle} :
    g.bundleAt? n = some b ↔ g.nodes[n]? = some (.bundle b) := by
  unfold bundleAt? node?
  cases g.nodes[n]? with
  | none => simp
  | some node => cases node <;> simp [Node.bundle?]

theorem groupAt?_eq_some_iff {group : BundleGroup} :
    g.groupAt? n = some group ↔ g.nodes[n]? = some (.group group) := by
  unfold groupAt? node?
  cases g.nodes[n]? with
  | none => simp
  | some node => cases node <;> simp [Node.group?]

theorem getElem?_keys_of_bundleAt? {b : Bundle} (found : g.bundleAt? n = some b) :
    g.keys[n]? = some b.id :=
  getElem?_keys.2 ⟨_, bundleAt?_eq_some_iff.1 found, rfl⟩

theorem getElem?_keys_of_groupAt? {group : BundleGroup} (found : g.groupAt? n = some group) :
    g.keys[n]? = some group.id :=
  getElem?_keys.2 ⟨_, groupAt?_eq_some_iff.1 found, rfl⟩

/-- A digest is the key of a bundle. -/
theorem WellKeyed.exists_bundleAt? (keyed : g.WellKeyed) (found : g.keys[n]? = some key)
    (digest : IsDigest key) : ∃ b, g.bundleAt? n = some b ∧ b.id = key := by
  obtain ⟨node, isNode, rfl⟩ := getElem?_keys.1 found
  have named := keyed.named node (List.mem_of_getElem? isNode)
  cases node with
  | root => exact absurd digest not_isDigest_rootKey
  | group group => exact absurd named (not_isGroupId_of_isDigest digest)
  | bundle b => exact ⟨b, bundleAt?_eq_some_iff.2 isNode, rfl⟩

theorem WellKeyed.exists_groupAt? (keyed : g.WellKeyed) (found : g.keys[n]? = some key)
    (isGroup : IsGroupId key) : ∃ group, g.groupAt? n = some group ∧ group.id = key := by
  obtain ⟨node, isNode, rfl⟩ := getElem?_keys.1 found
  have named := keyed.named node (List.mem_of_getElem? isNode)
  cases node with
  | root => exact absurd isGroup not_isGroupId_rootKey
  | group group => exact ⟨group, groupAt?_eq_some_iff.2 isNode, rfl⟩
  | bundle b => exact absurd isGroup (not_isGroupId_of_isDigest named)

/-- A key stands at one place. -/
theorem WellKeyed.eq_of_key (keyed : g.WellKeyed) (left : g.keys[n]? = some key)
    (right : g.keys[m]? = some key) : n = m :=
  Option.some_inj.1 ((keyed.nodeOfKey?_eq_some_iff.2 left).symm.trans
    (keyed.nodeOfKey?_eq_some_iff.2 right))

theorem mem_outgoing : m ∈ g.outgoing n edgeType ↔ ⟨n, m, edgeType⟩ ∈ g.edges := by
  simp only [outgoing, List.mem_map, List.mem_filter, decide_eq_true_eq]
  constructor
  · rintro ⟨⟨_, _, _⟩, ⟨listed, rfl, rfl⟩, rfl⟩
    exact listed
  · intro listed
    exact ⟨_, ⟨listed, rfl, rfl⟩, rfl⟩

theorem mem_groups {group : BundleGroup} : group ∈ g.groups ↔ ∃ n, g.groupAt? n = some group := by
  simp only [groups, List.mem_filterMap, groupAt?_eq_some_iff, ← List.mem_iff_getElem?]
  constructor
  · rintro ⟨node, listed, isGroup⟩
    cases node with
    | root => cases isGroup
    | group other =>
      cases isGroup
      exact listed
    | bundle => cases isGroup
  · intro listed
    exact ⟨_, listed, rfl⟩

/-- The bundles that edges lead to from the node with a key. -/
theorem WellKeyed.mem_bundlesAlong (keyed : g.WellKeyed) (found : g.keys[n]? = some key)
    {b : Bundle} :
    b ∈ g.bundlesAlong key edgeType ↔
      ∃ m, ⟨n, m, edgeType⟩ ∈ g.edges ∧ g.bundleAt? m = some b := by
  unfold bundlesAlong
  rw [keyed.nodeOfKey?_eq_some_iff.2 found]
  simp only [List.mem_filterMap, mem_outgoing]

theorem WellKeyed.mem_bundlesInGroup (keyed : g.WellKeyed) (found : g.keys[n]? = some key)
    {b : Bundle} :
    b ∈ g.bundlesInGroup key true ↔ ∃ m, ⟨n, m, .bundle⟩ ∈ g.edges ∧ g.bundleAt? m = some b := by
  rw [← keyed.mem_bundlesAlong found, bundlesInGroup]
  simp

theorem WellKeyed.mem_asyncGroups (keyed : g.WellKeyed) (found : g.keys[n]? = some key)
    {group : BundleGroup} :
    group ∈ g.asyncGroups key ↔ ∃ m, ⟨n, m, .async⟩ ∈ g.edges ∧ g.groupAt? m = some group := by
  unfold asyncGroups
  rw [keyed.nodeOfKey?_eq_some_iff.2 found]
  simp only [List.mem_filterMap, mem_outgoing]

end Lookup

section Adding

/-- The second graph has the nodes of the first, under the same numbers, and maybe more. -/
structure Grows (g h : BundleGraph) : Prop where
  keyed : h.WellKeyed
  keys : g.keys <+: h.keys

theorem Grows.refl (keyed : g.WellKeyed) : Grows g g := ⟨keyed, List.prefix_refl _⟩

theorem Grows.trans (first : Grows g h) (second : Grows h next) : Grows g next :=
  ⟨second.keyed, first.keys.trans second.keys⟩

theorem Grows.keeps (grows : Grows g h) (found : g.keys[n]? = some key) :
    h.keys[n]? = some key := by
  obtain ⟨more, same⟩ := grows.keys
  rw [← same]
  exact List.getElem?_append_left (List.getElem?_eq_some_iff.1 found).1 ▸ found

theorem keys_addNode (g : BundleGraph) (node : Node) :
    (g.addNode node).1.keys = g.keys ++ [node.key] := by
  simp [addNode, keys]

theorem nodup_keys_addNode (distinct : g.keys.Nodup) {node : Node}
    (new : g.nodeOfKey? node.key = none) : (g.addNode node).1.keys.Nodup := by
  have fresh := nodeOfKey?_eq_none new
  rw [keys_addNode]
  exact distinct.append (List.nodup_singleton _) (by simpa using fresh)

/-- A node with a new key is added behind the others. -/
theorem grows_addNode (keyed : g.WellKeyed) (node : Node) (new : g.nodeOfKey? node.key = none)
    (named : node.WellNamed) :
    Grows g (g.addNode node).1 ∧ (g.addNode node).1.keys[(g.addNode node).2]? = some node.key := by
  have keys := keys_addNode g node
  refine ⟨⟨⟨nodup_keys_addNode keyed.distinct new, ?_, ?_⟩, keys ▸ List.prefix_append _ _⟩, ?_⟩
  · exact List.getElem?_append_left (List.getElem?_eq_some_iff.1 keyed.root).1 ▸ keyed.root
  · intro other listed
    rcases List.mem_append.1 listed with old | now
    · exact keyed.named other old
    · rw [List.mem_singleton.1 now]
      exact named
  · rw [keys]
    simp [addNode, BundleGraph.keys]

theorem addGroup_spec (keyed : g.WellKeyed) {group : BundleGroup} (isGroup : IsGroupId group.id) :
    Grows g (g.addGroup group).1 ∧ (g.addGroup group).1.edges = g.edges ∧
      (g.addGroup group).1.keys[(g.addGroup group).2]? = some group.id := by
  unfold addGroup
  cases found : g.nodeOfKey? group.id with
  | some n => exact ⟨.refl keyed, rfl, keyed.nodeOfKey?_eq_some_iff.1 found⟩
  | none =>
    obtain ⟨grows, added⟩ := grows_addNode keyed (.group group) found isGroup
    exact ⟨grows, rfl, added⟩

/-- Merging two bundles leaves the keys alone. -/
theorem keys_merge {existing : Bundle} (found : g.nodes[n]? = some (.bundle existing))
    (bundle : Bundle) :
    (g.nodes.set n (.bundle (existing.merge bundle))).map Node.key = g.keys := by
  obtain ⟨inside, same⟩ := List.getElem?_eq_some_iff.1 found
  have key : g.keys[n]? = some existing.id := getElem?_keys.2 ⟨_, found, rfl⟩
  obtain ⟨inKeys, value⟩ := List.getElem?_eq_some_iff.1 key
  rw [List.map_set]
  show g.keys.set n existing.id = g.keys
  rw [← value, List.set_getElem_self]

theorem addBundle_spec (keyed : g.WellKeyed) {bundle : Bundle} (digest : IsDigest bundle.id)
    (success : g.addBundle bundle = .ok (next, n)) :
    Grows g next ∧ next.edges = g.edges ∧ next.keys[n]? = some bundle.id := by
  unfold addBundle at success
  split at success
  · rename_i new
    cases success
    obtain ⟨grows, added⟩ := grows_addNode keyed (.bundle bundle) new digest
    exact ⟨grows, rfl, added⟩
  · rename_i n found
    have isNode := keyed.nodeOfKey?_eq_some_iff.1 found
    split at success
    · rename_i existing isBundle
      split at success
      · cases success
        have same := keys_merge isBundle bundle
        refine ⟨⟨⟨?_, ?_, ?_⟩, ?_⟩, rfl, ?_⟩
        · show (List.map Node.key _).Nodup
          rw [same]
          exact keyed.distinct
        · -- the node that is merged is a bundle, so it is not the root
          have other : n ≠ rootNode := by
            rintro rfl
            cases keyed.root.symm.trans isBundle
          exact (List.getElem?_set_ne other).trans keyed.root
        · intro node listed
          rcases List.mem_or_eq_of_mem_set listed with old | rfl
          · exact keyed.named node old
          · exact keyed.named (.bundle existing) (List.mem_of_getElem? isBundle)
        · exact ⟨[], (List.append_nil g.keys).trans same.symm⟩
        · exact (congrArg (·[n]?) same).trans isNode
      · cases success
    · cases success

/-- Linking adds the edges that do not lead back to their start. -/
theorem mem_linkAll {edges : List Edge} {e : Edge} :
    e ∈ (g.linkAll edges).edges ↔ e ∈ g.edges ∨ (e ∈ edges ∧ e.source ≠ e.target) := by
  induction edges generalizing g with
  | nil => simp [linkAll]
  | cons first edges ih =>
    have linked : e ∈ (g.link first.source first.target first.edgeType).edges ↔
        e ∈ g.edges ∨ (e = first ∧ e.source ≠ e.target) := by
      unfold link
      split
      · rename_i skip
        constructor
        · exact .inl
        · rintro (old | ⟨rfl, apart⟩)
          · exact old
          · exact skip.resolve_left apart
      · rename_i adds
        simp only [List.mem_append, List.mem_singleton]
        constructor
        · rintro (old | rfl)
          · exact .inl old
          · exact .inr ⟨rfl, fun same => adds (.inl same)⟩
        · rintro (old | ⟨rfl, _⟩)
          · exact .inl old
          · exact .inr rfl
    show e ∈ ((g.link first.source first.target first.edgeType).linkAll edges).edges ↔ _
    rw [ih, linked, List.mem_cons, or_assoc, or_and_right]

theorem nodes_linkAll (edges : List Edge) : (g.linkAll edges).nodes = g.nodes := by
  refine List.foldlRecOn (motive := fun (h : BundleGraph) => h.nodes = g.nodes) edges _ rfl ?_
  intro h same e _
  unfold link
  split
  · exact same
  · exact same

theorem keys_linkAll (edges : List Edge) : (g.linkAll edges).keys = g.keys := by
  rw [keys, nodes_linkAll, keys]

theorem Grows.linkAll (grows : Grows g h) (edges : List Edge) : Grows g (h.linkAll edges) := by
  refine ⟨⟨?_, ?_, ?_⟩, ?_⟩
  · rw [keys_linkAll]
    exact grows.keyed.distinct
  · rw [nodes_linkAll]
    exact grows.keyed.root
  · rw [nodes_linkAll]
    exact grows.keyed.named
  · rw [keys_linkAll]
    exact grows.keys

/-- What adding the first of some bundles and then the others does. -/
theorem addBundles_cons_ok {origin : BundleOrigin} {planned : Except Fault Bundle}
    {rest : List (BundleOrigin × Except Fault Bundle)} {written : List WrittenBundle}
    (success : addBundles ((origin, planned) :: rest) g = (next, .ok written)) :
    ∃ bundle middle node others, planned = .ok bundle ∧ g.addBundle bundle = .ok (middle, node) ∧
      addBundles rest middle = (next, .ok others) ∧
      written = ⟨origin, bundle.id, node⟩ :: others := by
  rw [addBundles] at success
  split at success
  · cases success
  · rename_i middle node id added
    obtain ⟨bundle, isBundle, added⟩ := bind_eq_ok_iff.1 added
    obtain ⟨pair, stored, same⟩ := map_eq_ok_iff.1 added
    cases same
    cases result : addBundles rest middle with
    | mk final others =>
      rw [result] at success
      obtain ⟨rfl, wrote⟩ := Prod.mk.inj success
      obtain ⟨others, rfl, rfl⟩ := map_eq_ok_iff.1 wrote
      exact ⟨bundle, middle, node, others, isBundle, stored, result, rfl⟩

end Adding

end BundleGraph

end CodeSplit
