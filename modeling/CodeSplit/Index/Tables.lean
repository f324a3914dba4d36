import CodeSplit.Index

/-!
Making the graph index in one pass over the nodes of a graph. The interner of asset keys numbers the
ids of the assets first. Then every asset goes into the row of its number, and its dependencies
behind those that are in that row. The tables of assets, of their environments and of their
dependencies are kept side by side; they are an index once every row has an asset.
-/
namespace CodeSplit.Index

/-- The ids of assets and their keys, each found by the other. -/
structure Numbering where
  keys : KeyMap String AssetKey
  ids : List String
  deriving DecidableEq, Repr

namespace Numbering

/-- A key is a number of 32 bits. -/
def checkedKey (k : Nat) : Except Fault AssetKey :=
  if k < Nat.pow 2 32 then .ok k else .error (.failure .tooManyAssets)

def ofGraph (g : AssetGraph) : Except Fault Numbering := do
  let ids := idsOfGraph g
  let keys ← ids.zipIdx.mapM fun e => Prod.mk e.1 <$> checkedKey e.2
  return { keys := .ofList keys, ids }

def keyOf? (names : Numbering) (id : String) : Option AssetKey := names.keys.get? id

/-- The dependencies that the edges of a node lead to. -/
def linksOf (names : Numbering) (g : AssetGraph) (n : NodeId) : List Link :=
  (g.outgoing n).filterMap fun d =>
    (g.dependency? d).map fun dependency =>
      { dependency
        target := ((g.resolve? d).bind g.asset?).bind fun a => names.keyOf? a.id }

end Numbering

/-- Tables that are being filled. -/
structure Rows where
  assets : List (Option Asset)
  links : List (List Link)
  dependencyCount : Nat
  deriving DecidableEq, Repr

namespace Rows

def empty (size : Nat) : Rows where
  assets := List.replicate size none
  links := List.replicate size []
  dependencyCount := 0

/-- Puts the asset of a node into its row, and its dependencies behind those that are there. -/
def add (g : AssetGraph) (names : Numbering) (rows : Rows) (node : NodeId × Asset) :
    Except Fault Rows :=
  match names.keyOf? node.2.id with
  | none => .error (.failure .unnumberedAsset)
  | some k =>
    let links := names.linksOf g node.1
    .ok {
      assets := rows.assets.set k (some node.2)
      links := rows.links.modify k (· ++ links)
      dependencyCount := rows.dependencyCount + links.length }

/-- The asset of a row, which has to have one. -/
def filled (row : Option Asset × Nat) : Except Fault Asset :=
  match row.1 with
  | some asset => .ok asset
  | none => .error (.failure (.missingAsset row.2))

end Rows

/-- An index as tables that have a row for every key. -/
structure Tables where
  numbering : Numbering
  assets : List Asset
  envIds : List String
  links : List (List Link)
  dependencyCount : Nat
  deriving DecidableEq, Repr

namespace Tables

def ofGraph (g : AssetGraph) : Except Fault Tables := do
  let numbering ← Numbering.ofGraph g
  let rows ← g.assets.foldlM (Rows.add g numbering) (.empty numbering.ids.length)
  let assets ← rows.assets.zipIdx.mapM Rows.filled
  return {
    numbering, assets
    envIds := assets.map fun a => a.env.id
    links := rows.links
    dependencyCount := rows.dependencyCount }

variable (t : Tables)

def keyOf? (id : String) : Option AssetKey := t.numbering.keyOf? id

def idAt? (k : AssetKey) : Option String := t.numbering.ids[k]?

def assetAt? (k : AssetKey) : Option Asset := t.assets[k]?

def envIdAt? (k : AssetKey) : Option String := t.envIds[k]?

def linksAt? (k : AssetKey) : Option (List Link) := t.links[k]?

/-- The tables row by row. -/
def index : Index where
  assets := (t.assets.zip (t.envIds.zip t.links)).map fun row => ⟨row.1, row.2.1, row.2.2⟩

end Tables

end CodeSplit.Index
