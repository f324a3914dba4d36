import CodeSplit.Total

/-!
Depth-first exploration with a stack, as the passes walk. The stack holds what is still to be
visited; the successors of a visited element go on top of it, the last one uppermost.
-/
namespace CodeSplit.Walk

variable {α : Type} [DecidableEq α]

/-- Visits what is on the stack and everything that follows from it; `visited` holds what has been
visited, last first. -/
def visit (next : α → List α) : (fuel : Nat) → (stack visited : List α) → List α
  | 0, _, visited => visited.reverse
  | _ + 1, [], visited => visited.reverse
  | fuel + 1, x :: stack, visited =>
    if x ∈ visited then visit next fuel stack visited
    else visit next fuel ((next x).reverse ++ stack) (x :: visited)

/-- The elements reached from `start`, in the order of their visits. Every element with successors
is listed in `sources`, so that the number of steps is bounded by what can be put on the stack. -/
def explore (next : α → List α) (sources start : List α) : List α :=
  let pushed := total (sources.map fun x => (next x).length)
  visit next (start.length + pushed + 1) start.reverse []

end CodeSplit.Walk
