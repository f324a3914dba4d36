import CodeSplit.Plan
import CodeSplit.Report

/-!
Bundle groups: the groups that each root loads in. A root with a group is in that group; a root that
is loaded along with another one is in all groups of the other. Membership is handed on in rounds
until a round adds nothing.
-/
namespace CodeSplit.Plan

/-- The groups of each root before any edge is followed. -/
def initialGroups (p : Plan) : KeyMap AssetKey (KeySet AssetKey) :=
  p.roots.map fun key root => if root.triggers.createsGroup then .singleton key else ∅

/-- Passes the groups of the source of an edge on to its target, unless the target loads in a group
of its own. -/
def spreadGroups (groups : KeyMap AssetKey (KeySet AssetKey)) (e : BundleEdge) :
    KeyMap AssetKey (KeySet AssetKey) :=
  if e.triggers.createsGroup || e.source = e.target then groups
  else
    let passed := (groups.get? e.source).getD ∅
    groups.update e.target ∅ fun own => own.union passed

def spreadAll (edges : List BundleEdge) (groups : KeyMap AssetKey (KeySet AssetKey)) :
    KeyMap AssetKey (KeySet AssetKey) := edges.foldl spreadGroups groups

def membershipCount (groups : KeyMap AssetKey (KeySet AssetKey)) : Nat :=
  total (groups.values.map KeySet.size)

/-- Follows all edges until a round adds no membership; also counts the rounds. -/
def settleGroups (edges : List BundleEdge) :
    (fuel : Nat) → KeyMap AssetKey (KeySet AssetKey) → KeyMap AssetKey (KeySet AssetKey) × Nat
  | 0, groups => (groups, 0)
  | fuel + 1, groups =>
    let next := spreadAll edges groups
    if membershipCount next = membershipCount groups then (next, 1)
    else
      let (settled, rounds) := settleGroups edges fuel next
      (settled, rounds + 1)

/-- More rounds than there are pairs of a root and a group. -/
def groupRounds (p : Plan) : Nat := (p.roots.size + p.edges.length) * p.roots.size + 1

/-- The groups of each root and the number of rounds it took to find them. -/
def settledGroups (p : Plan) : KeyMap AssetKey (KeySet AssetKey) × Nat :=
  settleGroups p.edges p.groupRounds p.initialGroups

def withGroups (p : Plan) : Plan := { p with ownGroups := p.settledGroups.1 }

def assignGroups (p : Plan) : Report Plan := do
  .event (.counts "ideal graph: assigned bundle groups" [
    ("groups", p.groupRoots.length), ("rounds", p.settledGroups.2)])
  return p.withGroups

end CodeSplit.Plan
