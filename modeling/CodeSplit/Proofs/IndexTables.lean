import CodeSplit.Index.Tables
import CodeSplit.Proofs.AssetLookup
import CodeSplit.Proofs.GraphCalls
import CodeSplit.Proofs.PlannedBundles
import Mathlib.Algebra.Group.Nat.Defs
import Mathlib.Data.List.Nodup

/-!
The tables of an index are a renaming of the assets of a graph. Filling them row by row ends with
what grouping the nodes by their ids gives, so the two ways to make an index agree. What the rows
hold is then read off the calls that built the graph.
-/
namespace CodeSplit

section Lists

variable {α β : Type}

/-- Changing the row of one element is changing the function that the rows are made by. -/
theorem modify_map {xs : List α} (distinct : xs.Nodup) {k : Nat} {x : α} (place : xs[k]? = some x)
    {row next : α → β} {change : β → β} (here : next x = change (row x))
    (elsewhere : ∀ y, y ≠ x → next y = row y) : (xs.map row).modify k change = xs.map next := by
  apply List.ext_getElem?
  intro j
  rw [List.getElem?_modify, List.getElem?_map, List.getElem?_map]
  by_cases same : k = j
  · subst same
    simp [place, here]
  · cases found : xs[j]? with
    | none => simp
    | some y =>
      have apart : y ≠ x := by
        rintro rfl
        have inside := (List.getElem?_eq_some_iff.1 place).1
        exact same ((List.getElem?_inj inside distinct).1 (place.trans found.symm))
      simp [same, elsewhere y apart]

theorem total_map_length_modify (rows : List (List α)) {k : Nat} (inside : k < rows.length)
    (added : List α) :
    total ((rows.modify k (· ++ added)).map List.length) =
      total (rows.map List.length) + added.length := by
  induction rows generalizing k with
  | nil => cases inside
  | cons row rows ih =>
    cases k with
    | zero =>
      simp
      omega
    | succ k =>
      have rest := ih (Nat.lt_of_succ_lt_succ inside)
      simp [rest]
      omega

end Lists

/-- Where every id belongs to one node, looking it up finds that node. -/
theorem AssetGraph.DistinctKeys.nodeOfKey?_eq {g : AssetGraph} (distinct : g.DistinctKeys)
    {n : NodeId} {node : Node} {id : String} (holds : g.node? n = some node)
    (named : node.key? = some id) : g.nodeOfKey? id = some n :=
  (findIdx?_eq_some_iff_of_nodup distinct).2 ⟨node, holds, named⟩

namespace Index

open AssetGraph (Node Call afterCalls lastAdded? lastAsset? targetsAskedFor)
open Digest (utf8)

variable {g : AssetGraph} {ids : List String}

section Numbering

namespace Numbering

/-- The numbering of ids by their places. -/
def ofIds (ids : List String) : Numbering := ⟨.ofList ids.zipIdx, ids⟩

theorem keyOf?_ofIds (distinct : ids.Nodup) (id : String) :
    (ofIds ids).keyOf? id = ids.findIdx? (· = id) := by
  have keyed : ∀ e ∈ ids.zipIdx, ids.findIdx? (· = e.1) = some e.2 := by
    intro e listed
    have place := List.mem_zipIdx_iff_getElem?.1 listed
    exact (findIdx?_eq_some_iff_of_nodup (by simpa using distinct)).2 ⟨e.1, place, rfl⟩
  have found := KeyMap.get?_ofList_of_keyed (fun id => ids.findIdx? (· = id)) keyed id
  rw [List.zipIdx_map_fst] at found
  refine found.trans ?_
  split
  · rfl
  · rename_i absent
    symm
    rw [List.findIdx?_eq_none_iff]
    intro other listed
    simpa using fun same : other = id => absent (same ▸ listed)

theorem keyOf?_eq_some_iff (distinct : ids.Nodup) {id : String} {k : AssetKey} :
    (ofIds ids).keyOf? id = some k ↔ ids[k]? = some id := by
  rw [keyOf?_ofIds distinct, findIdx?_eq_some_iff_of_nodup (by simpa using distinct)]
  simp

theorem linksOf_ofIds (distinct : ids.Nodup) (n : NodeId) :
    (ofIds ids).linksOf g n = linksOfNode g ids n := by
  simp only [linksOf, linksOfNode, keyOf?_ofIds distinct]

theorem checkedKey_of_lt {k : Nat} (fits : k < 2 ^ 32) : checkedKey k = .ok k := if_pos fits

theorem checkedKey_of_le {k : Nat} (large : 2 ^ 32 ≤ k) :
    checkedKey k = .error (.failure .tooManyAssets) :=
  if_neg (Nat.not_lt.2 large)

/-- The ids of a graph can be numbered as long as every place of theirs is a key. -/
theorem ofGraph_eq (few : (idsOfGraph g).length ≤ 2 ^ 32) :
    Numbering.ofGraph g = .ok (ofIds (idsOfGraph g)) := by
  have each : ∀ e ∈ (idsOfGraph g).zipIdx, Prod.mk e.1 <$> checkedKey e.2 = .ok e := by
    intro e listed
    have inside := (List.getElem?_eq_some_iff.1 (List.mem_zipIdx_iff_getElem?.1 listed)).1
    rw [checkedKey_of_lt (Nat.lt_of_lt_of_le inside few)]
    rfl
  have numbered := mapM_eq_ok each
  rw [List.map_id'] at numbered
  exact bind_eq_ok_iff.2 ⟨_, numbered, rfl⟩

theorem ofGraph_eq_error (many : 2 ^ 32 < (idsOfGraph g).length) :
    Numbering.ofGraph g = .error (.failure .tooManyAssets) := by
  cases result : (idsOfGraph g).zipIdx.mapM fun e => Prod.mk e.1 <$> checkedKey e.2 with
  | ok entries =>
    -- the place behind the last key is one of an id
    have place : ((idsOfGraph g)[2 ^ 32], 2 ^ 32) ∈ (idsOfGraph g).zipIdx :=
      List.mem_zipIdx_iff_getElem?.2 (List.getElem?_eq_getElem many)
    obtain ⟨_, _, passed⟩ := exists_of_mem_mapM result place
    rw [checkedKey_of_le (Nat.le_refl _)] at passed
    cases passed
  | error fault =>
    obtain ⟨e, _, failed⟩ := exists_of_mapM_error result
    have reason : fault = .failure .tooManyAssets := by
      rcases Nat.lt_or_ge e.2 (2 ^ 32) with fits | large
      · rw [checkedKey_of_lt fits] at failed
        cases failed
      · rw [checkedKey_of_le large] at failed
        cases failed
        rfl
    exact bind_eq_error_iff.2 (.inl (result.trans (congrArg _ reason)))

end Numbering

end Numbering

section Filling

namespace Rows

/-- The tables after some nodes. In the row of an id are the last asset of the id and the
dependencies of all nodes of it. -/
def after (g : AssetGraph) (ids : List String) (nodes : List (NodeId × Asset)) : Rows :=
  let links := ids.map fun id =>
    (nodes.filter fun e => e.2.id = id).flatMap fun e => linksOfNode g ids e.1
  { assets := ids.map fun id => (nodes.filter fun e => e.2.id = id).getLast?.map Prod.snd
    links
    dependencyCount := total (links.map List.length) }

theorem after_nil (g : AssetGraph) (ids : List String) : after g ids [] = empty ids.length := by
  have none : total ((List.replicate ids.length ([] : List Link)).map List.length) = 0 := by
    induction ids with
    | nil => rfl
    | cons id ids ih => simpa [List.replicate_succ] using ih
  simpa [after, empty] using none

/-- Adding a node to the tables after some nodes gives the tables after those and the node. -/
theorem add_after (distinct : ids.Nodup) (nodes : List (NodeId × Asset)) {node : NodeId × Asset}
    (known : node.2.id ∈ ids) :
    add g (.ofIds ids) (after g ids nodes) node = .ok (after g ids (nodes ++ [node])) := by
  obtain ⟨k, place⟩ := List.mem_iff_getElem?.1 known
  have numbered := (Numbering.keyOf?_eq_some_iff distinct).2 place
  have inside := (List.getElem?_eq_some_iff.1 place).1
  have assets : (after g ids nodes).assets.set k (some node.2) =
      (after g ids (nodes ++ [node])).assets := by
    rw [List.set_eq_modify]
    apply modify_map distinct place
    · simp
    · intro id apart
      simp [List.filter_append, Ne.symm apart]
  have links : (after g ids nodes).links.modify k (· ++ linksOfNode g ids node.1) =
      (after g ids (nodes ++ [node])).links := by
    apply modify_map distinct place
    · simp
    · intro id apart
      simp [List.filter_append, Ne.symm apart]
  have count : (after g ids nodes).dependencyCount + (linksOfNode g ids node.1).length =
      (after g ids (nodes ++ [node])).dependencyCount := by
    have row : k < (after g ids nodes).links.length := by simpa [after] using inside
    have counted := total_map_length_modify _ row (linksOfNode g ids node.1)
    rw [links] at counted
    exact counted.symm
  unfold add
  simp only [numbered, Numbering.linksOf_ofIds distinct, assets, links, count]

/-- Adding nodes one by one never fails, as long as their ids are numbered. -/
theorem foldlM_add (distinct : ids.Nodup) (done rest : List (NodeId × Asset))
    (known : ∀ e ∈ rest, e.2.id ∈ ids) :
    rest.foldlM (add g (.ofIds ids)) (after g ids done) = .ok (after g ids (done ++ rest)) := by
  induction rest generalizing done with
  | nil => simp [pure, Except.pure]
  | cons node rest ih =>
    rw [List.foldlM_cons, add_after distinct done (known node List.mem_cons_self)]
    have others := ih (done ++ [node]) fun e member => known e (List.mem_cons_of_mem _ member)
    rw [List.append_assoc, List.singleton_append] at others
    exact others

theorem mapM_filled (assets : List Asset) (k : Nat) :
    ((assets.map some).zipIdx k).mapM filled = .ok assets := by
  induction assets generalizing k with
  | nil => rfl
  | cons asset assets ih =>
    rw [List.map_cons, List.zipIdx_cons, List.mapM_cons, ih]
    rfl

end Rows

theorem map_indexedOfGraph? (g : AssetGraph) :
    (idsOfGraph g).map (indexedOfGraph? g (idsOfGraph g)) = (ofGraph g).assets.map some := by
  apply List.ext_getElem?
  intro k
  have row : (ofGraph g).assets[k]? = _ := indexed?_ofGraph k
  rw [List.getElem?_map, List.getElem?_map, row]
  cases found : (idsOfGraph g)[k]? with
  | none => rfl
  | some id =>
    obtain ⟨entry, made⟩ := Option.isSome_iff_exists.1
      (isSome_indexedOfGraph? (List.mem_of_getElem? found) (idsOfGraph g))
    simp [made]

namespace Rows

theorem assets_after (g : AssetGraph) :
    (after g (idsOfGraph g) g.assets).assets =
      ((ofGraph g).assets.map IndexedAsset.asset).map some := by
  have rows : (after g (idsOfGraph g) g.assets).assets =
      ((idsOfGraph g).map (indexedOfGraph? g (idsOfGraph g))).map
        (Option.map IndexedAsset.asset) := by
    rw [List.map_map]
    apply List.map_congr_left
    intro id _
    simp only [indexedOfGraph?, Function.comp_apply, Option.map_map]
    rfl
  rw [rows, map_indexedOfGraph?, List.map_map, List.map_map]
  rfl

theorem links_after (g : AssetGraph) :
    (after g (idsOfGraph g) g.assets).links = (ofGraph g).assets.map IndexedAsset.links := by
  have rows : (after g (idsOfGraph g) g.assets).links =
      ((idsOfGraph g).map (indexedOfGraph? g (idsOfGraph g))).map
        fun row => (row.map IndexedAsset.links).getD [] := by
    rw [List.map_map]
    apply List.map_congr_left
    intro id _
    simp only [indexedOfGraph?, Function.comp_apply, Option.map_map]
    cases last : (g.assets.filter fun e => e.2.id = id).getLast? with
    | none => simp [List.getLast?_eq_none_iff.1 last]
    | some node => rfl
  rw [rows, map_indexedOfGraph?, List.map_map]
  rfl

end Rows

end Filling

section Tables

namespace Tables

/-- The rows of an index as tables, with the ids of its assets. -/
def ofIndex (ids : List String) (i : Index) : Tables where
  numbering := .ofIds ids
  assets := i.assets.map IndexedAsset.asset
  envIds := i.assets.map IndexedAsset.envId
  links := i.assets.map IndexedAsset.links
  dependencyCount := i.dependencyCount

theorem index_ofIndex (ids : List String) (i : Index) : (ofIndex ids i).index = i := by
  unfold index ofIndex
  rw [List.zip_map', List.zip_map', List.map_map]
  exact congrArg Index.mk (List.map_id _)

theorem envId_ofGraph {entry : IndexedAsset} (listed : entry ∈ (Index.ofGraph g).assets) :
    entry.asset.env.id = entry.envId := by
  obtain ⟨id, _, made⟩ := List.mem_filterMap.1 listed
  unfold indexedOfGraph? at made
  obtain ⟨_, _, rfl⟩ := Option.map_eq_some_iff.1 made
  rfl

/-- The tables that are filled in one pass are the index of the graph. -/
theorem ofGraph_eq (few : (idsOfGraph g).length ≤ 2 ^ 32) :
    Tables.ofGraph g = .ok (ofIndex (idsOfGraph g) (Index.ofGraph g)) := by
  have known : ∀ e ∈ g.assets, e.2.id ∈ idsOfGraph g := by
    intro e listed
    exact mem_idsOfGraph.2 ⟨e.2, List.mem_of_getElem? (AssetGraph.mem_assets.1 listed), rfl⟩
  have filled := Rows.foldlM_add (g := g) nodup_idsOfGraph [] g.assets known
  rw [Rows.after_nil, List.nil_append] at filled
  have complete := Rows.mapM_filled ((Index.ofGraph g).assets.map IndexedAsset.asset) 0
  rw [← Rows.assets_after] at complete
  have envIds : ((Index.ofGraph g).assets.map IndexedAsset.asset).map (fun a => a.env.id) =
      (Index.ofGraph g).assets.map IndexedAsset.envId := by
    rw [List.map_map]
    exact List.map_congr_left fun _ listed => envId_ofGraph listed
  have count : (Rows.after g (idsOfGraph g) g.assets).dependencyCount =
      (Index.ofGraph g).dependencyCount := by
    show total ((Rows.after g (idsOfGraph g) g.assets).links.map List.length) = _
    rw [Rows.links_after, List.map_map]
    rfl
  unfold Tables.ofGraph
  refine bind_eq_ok_iff.2 ⟨_, Numbering.ofGraph_eq few, ?_⟩
  refine bind_eq_ok_iff.2 ⟨_, filled, ?_⟩
  refine bind_eq_ok_iff.2 ⟨_, complete, ?_⟩
  rw [envIds, count, Rows.links_after]
  rfl

theorem ofGraph_eq_error (many : 2 ^ 32 < (idsOfGraph g).length) :
    Tables.ofGraph g = .error (.failure .tooManyAssets) :=
  bind_eq_error_iff.2 (.inl (Numbering.ofGraph_eq_error many))

end Tables

end Tables

section Calls

theorem length_assets_ofGraph (g : AssetGraph) :
    (ofGraph g).assets.length = (idsOfGraph g).length := by
  simpa using (congrArg List.length (map_indexedOfGraph? g)).symm

theorem map_id_ofGraph (g : AssetGraph) :
    ((ofGraph g).assets.map fun e => e.asset.id) = idsOfGraph g := by
  apply List.ext_getElem?
  intro k
  have row : (ofGraph g).assets[k]? = _ := indexed?_ofGraph k
  rw [List.getElem?_map]
  cases found : (idsOfGraph g)[k]? with
  | none => rw [row, found, Option.bind_none, Option.map_none]
  | some id =>
    obtain ⟨asset, isAsset, named⟩ := map_eq_ok_iff.1 (idOf_ofGraph found)
    obtain ⟨entry, indexed, rfl⟩ := Option.map_eq_some_iff.1 (asset_eq_ok_iff.1 isAsset)
    rw [← named]
    exact congrArg (Option.map fun e => e.asset.id) indexed

theorem keyOf?_ofGraph (g : AssetGraph) (id : String) :
    (ofGraph g).keyOf? id = (Numbering.ofIds (idsOfGraph g)).keyOf? id := by
  rw [Numbering.keyOf?_ofIds nodup_idsOfGraph, ← map_id_ofGraph, List.findIdx?_map]
  rfl

/-- Where every id belongs to one node, there are as many ids as assets. -/
theorem length_idsOfGraph (distinct : g.DistinctKeys) :
    (idsOfGraph g).length = g.assets.length := by
  have once : (g.assets.map fun e => e.2.id).Nodup := by
    refine nodup_assets.map_on ?_
    rintro ⟨m, a⟩ left ⟨n, b⟩ right same
    have holds := AssetGraph.mem_assets.1 left
    have holdsToo := AssetGraph.mem_assets.1 right
    have sameNode : m = n := distinct.node_eq holds holdsToo (congrArg some same)
    subst sameNode
    cases holds.symm.trans holdsToo
    rfl
  have perm : (idsOfGraph g).Perm (g.assets.map fun e => e.2.id) := by
    rw [List.perm_ext_iff_of_nodup nodup_idsOfGraph once]
    exact fun id => KeySet.mem_ofList
  simpa using perm.length_eq

theorem indexedOfGraph?_of_node (distinct : g.DistinctKeys) {n : NodeId} {a : Asset}
    (holds : g.node? n = some (.asset a)) (ids : List String) :
    indexedOfGraph? g ids a.id = some ⟨a, a.env.id, linksOfNode g ids n⟩ := by
  unfold indexedOfGraph?
  simp only [filter_assets distinct holds, List.getLast?_singleton, Option.map_some,
    List.flatMap_singleton]

/-- Nothing is listed twice among the dependencies of a node. -/
theorem nodup_linksOfNode (built : g.Built) (ids : List String) (n : NodeId) :
    ((linksOfNode g ids n).map fun link => link.dependency.id).Nodup := by
  -- no edge is there twice, and no id has two nodes
  have targets : (g.outgoing n).Nodup := AssetGraph.nodup_targets built.nodup_edges n
  unfold linksOfNode
  rw [List.map_filterMap]
  refine targets.filterMap ?_
  intro m m' id left right
  simp only [Option.mem_def, Option.map_map, Option.map_eq_some_iff] at left right
  obtain ⟨d, isNode, rfl⟩ := left
  obtain ⟨e, isNodeToo, same⟩ := right
  exact built.distinctKeys.node_eq (AssetGraph.dependency?_eq_some_iff.1 isNode)
    (AssetGraph.dependency?_eq_some_iff.1 isNodeToo) (congrArg some same.symm)

/-- The dependencies that the edges of a node lead to, in the order in which the edges were asked
for, each with the key of the first asset that its own edges lead to. -/
def linksAskedFor (calls : List Call) (keyOf? : String → Option AssetKey) (n : NodeId) :
    List Link :=
  (targetsAskedFor calls n).filterMap fun m =>
    ((afterCalls calls).dependency? m).map fun dependency =>
      { dependency
        target := ((targetsAskedFor calls m).findSome? (afterCalls calls).asset?).bind fun a =>
          keyOf? a.id }

theorem linksOfNode_afterCalls (calls : List Call) (ids : List String) (n : NodeId) :
    linksOfNode (afterCalls calls) ids n =
      linksAskedFor calls (fun id => ids.findIdx? (· = id)) n := by
  have first (m : NodeId) : ((afterCalls calls).resolve? m).bind (afterCalls calls).asset? =
      (targetsAskedFor calls m).findSome? (afterCalls calls).asset? := by
    unfold AssetGraph.resolve?
    rw [AssetGraph.find?_bind_eq_head?, List.head?_filterMap, AssetGraph.outgoing_afterCalls]
  simp only [linksOfNode, linksAskedFor, first, AssetGraph.outgoing_afterCalls]

/-- In the row of an id is what was added under it. -/
theorem row_afterCalls {calls : List Call} {k : AssetKey} {id : String}
    (place : (idsOfGraph (afterCalls calls))[k]? = some id) :
    ∃ n a, (afterCalls calls).nodeOfKey? id = some n ∧ lastAsset? calls id = some a ∧
      (ofGraph (afterCalls calls)).assets[k]? =
        some ⟨a, a.env.id, linksOfNode (afterCalls calls) (idsOfGraph (afterCalls calls)) n⟩ := by
  have distinct := (AssetGraph.built_afterCalls calls).distinctKeys
  obtain ⟨a, listed, rfl⟩ := mem_idsOfGraph.1 (List.mem_of_getElem? place)
  obtain ⟨n, holds⟩ := List.mem_iff_getElem?.1 listed
  have last := (AssetGraph.mem_afterCalls rfl).1 listed
  refine ⟨n, a, distinct.nodeOfKey?_eq holds rfl, AssetGraph.lastAsset?_of_lastAdded? last, ?_⟩
  have row : (ofGraph (afterCalls calls)).assets[k]? = _ := indexed?_ofGraph k
  rw [row, place, Option.bind_some, indexedOfGraph?_of_node distinct holds]

namespace Tables

/-- Tables are a renaming of what calls left in a graph. Each asset is called by a number, in the
order of the bytes of the ids, and its rows have what was added for it. -/
structure Renames (t : Tables) (calls : List Call) : Prop where
  sizes : ∀ length ∈ [t.numbering.ids.length, t.assets.length, t.envIds.length, t.links.length],
    length = (afterCalls calls).assets.length
  ordered : ∀ {j k : AssetKey} {s u : String}, t.idAt? j = some s → t.idAt? k = some u →
    (KeyOrder.before (utf8 s) (utf8 u) = true ↔ j < k)
  inverse : ∀ {id : String} {k : AssetKey}, t.keyOf? id = some k ↔ t.idAt? k = some id
  named : ∀ {id : String}, (∃ k, t.keyOf? id = some k) ↔ ∃ a, lastAdded? calls id = some (.asset a)
  rows : ∀ {id : String} {k : AssetKey}, t.idAt? k = some id → ∃ n a,
    (afterCalls calls).nodeOfKey? id = some n ∧ lastAsset? calls id = some a ∧
      t.assetAt? k = some a ∧ t.envIdAt? k = some a.env.id ∧
      t.linksAt? k = some (linksAskedFor calls t.keyOf? n)
  once : ∀ {k : AssetKey} {links : List Link}, t.linksAt? k = some links →
    (links.map fun link => link.dependency.id).Nodup
  counted : t.dependencyCount = total (t.links.map List.length)

theorem renames_ofIndex (calls : List Call) :
    (ofIndex (idsOfGraph (afterCalls calls)) (.ofGraph (afterCalls calls))).Renames calls := by
  have built := AssetGraph.built_afterCalls calls
  have inverse {id : String} {k : AssetKey} :
      (ofIndex (idsOfGraph (afterCalls calls)) (.ofGraph (afterCalls calls))).keyOf? id = some k ↔
        (idsOfGraph (afterCalls calls))[k]? = some id :=
    Numbering.keyOf?_eq_some_iff nodup_idsOfGraph
  constructor
  case sizes =>
    have ids := length_idsOfGraph built.distinctKeys
    simp [ofIndex, Numbering.ofIds, length_assets_ofGraph, ids]
  case ordered =>
    intro j k s u first second
    rw [Digest.before_utf8]
    exact (ascends_idsOfGraph _).before_iff first second
  case inverse => exact inverse
  case named =>
    intro id
    simp only [inverse, ← List.mem_iff_getElem?, mem_idsOfGraph]
    constructor
    · rintro ⟨a, listed, rfl⟩
      exact ⟨a, (AssetGraph.mem_afterCalls rfl).1 listed⟩
    · rintro ⟨a, last⟩
      have keyed := AssetGraph.key?_of_lastAdded? last
      exact ⟨a, (AssetGraph.mem_afterCalls keyed).2 last, Option.some.inj keyed⟩
  case rows =>
    intro id k place
    obtain ⟨n, a, isNode, last, row⟩ := row_afterCalls place
    refine ⟨n, a, isNode, last, ?_⟩
    have keys : (ofIndex (idsOfGraph (afterCalls calls)) (.ofGraph (afterCalls calls))).keyOf? =
        fun id => (idsOfGraph (afterCalls calls)).findIdx? (· = id) :=
      funext fun id => Numbering.keyOf?_ofIds nodup_idsOfGraph id
    rw [keys, ← linksOfNode_afterCalls]
    simp [assetAt?, envIdAt?, linksAt?, ofIndex, row]
  case once =>
    intro k links found
    obtain ⟨entry, indexed, rfl⟩ := Option.map_eq_some_iff.1 (List.getElem?_map.symm.trans found)
    have row : (Index.ofGraph (afterCalls calls)).assets[k]? = _ := indexed?_ofGraph k
    obtain ⟨id, place, _⟩ := Option.bind_eq_some_iff.1 (row.symm.trans indexed)
    obtain ⟨n, a, _, _, holds⟩ := row_afterCalls place
    cases indexed.symm.trans holds
    exact nodup_linksOfNode built _ n
  case counted =>
    show (Index.ofGraph (afterCalls calls)).dependencyCount = total _
    simp only [ofIndex, List.map_map]
    rfl

end Tables

/-- A graph that any calls built can be indexed exactly if its assets are no more than the keys. The
tables are then the index of the graph, with the same keys and ids, and a renaming of the assets
that the calls added. -/
theorem index_renames_assets (calls : List Call) :
    let g := afterCalls calls
    (g.assets.length ≤ 2 ^ 32 ∧
      ∃ t, Tables.ofGraph g = .ok t ∧ t.index = ofGraph g ∧
        (∀ id, (ofGraph g).keyOf? id = t.keyOf? id) ∧
        (∀ k id, (ofGraph g).idOf k = .ok id ↔ t.idAt? k = some id) ∧ t.Renames calls) ∨
    (2 ^ 32 < g.assets.length ∧ Tables.ofGraph g = .error (.failure .tooManyAssets)) := by
  intro g
  have ids : (idsOfGraph g).length = g.assets.length :=
    length_idsOfGraph (AssetGraph.built_afterCalls calls).distinctKeys
  rcases Nat.lt_or_ge (2 ^ 32) g.assets.length with many | few
  · exact .inr ⟨many, Tables.ofGraph_eq_error (ids ▸ many)⟩
  · exact .inl ⟨few, _, Tables.ofGraph_eq (ids ▸ few), Tables.index_ofIndex _ _,
      keyOf?_ofGraph g, fun _ _ => ⟨getElem?_idsOfGraph, idOf_ofGraph⟩,
      Tables.renames_ofIndex calls⟩

/-- Adds an asset that depends on another one, asks for an edge twice, and puts a new version in the
place of the first asset. -/
def secondVersion : List Call :=
  [.asset { id := "page" }, .asset { id := "menu" },
    .dependency { id := "page to menu", specifier := "menu" }, .edge 1 3, .edge 3 2, .edge 1 3,
    .asset { id := "page", stats := { size := 7 } }]

example : (Tables.ofGraph (afterCalls secondVersion)).toOption.map (fun t =>
    (t.numbering.ids, t.assets.map Asset.size, t.links.map (List.map Link.target))) =
      some (["menu", "page"], [0, 7], [[], [some 0]]) := by
  decide +kernel

end Calls

end Index

end CodeSplit
