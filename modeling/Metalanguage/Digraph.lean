import Metalanguage.Ordered

/-!
# Digraph — search and levels in a directed graph on numbered vertices

A graph on the vertices `0, …, n - 1` is the function `next` that lists the successors of each
vertex. `cycle?` searches it depth first for a closed walk; `levels` groups the vertices reached
from a start by their distance from it.
-/

namespace Metalanguage.Digraph

variable (next : Nat → List Nat)

/-! ## Cycles -/

/-- The closed walk that an arc from the tip of `path` back to its vertex `w` makes. `path` lists
the walk from its tip back to its start. -/
def closedWalk (path : List Nat) (w : Nat) : List Nat :=
  w :: (path.takeWhile (· != w)).reverse ++ [w]

/-- Searches depth first from `v`, which was reached along `path`. An error is a closed walk; otherwise
the answer lists the vertices known to lead to none, `v` now among them. The fuel bounds the length
of a path, whose vertices are distinct. -/
def search : Nat → List Nat → List Nat → Nat → Except (List Nat) (List Nat)
  | 0, _, safe, _ => .ok safe
  | fuel + 1, path, safe, v => do
    let safe ← (next v).foldlM
      (fun safe w =>
        if (v :: path).contains w then .error (closedWalk (v :: path) w)
        else if safe.contains w then .ok safe
        else search fuel (v :: path) safe w)
      safe
    return v :: safe

/-- The search from every vertex below `n`, in order. -/
def searchAll (n : Nat) : Except (List Nat) (List Nat) :=
  (List.range n).foldlM
    (fun safe v => if safe.contains v then .ok safe else search next n [] safe v) []

/-- The first closed walk that the search meets, from a vertex back to itself. -/
def cycle? (n : Nat) : Option (List Nat) :=
  match searchAll next n with
  | .error walk => some walk
  | .ok _ => none

/-! ## Levels -/

/-- The distinct successors of a level, in increasing order. -/
def nextLevel (level : List Nat) : List Nat := Ordered.keepLast compare (level.flatMap next)

/-- The levels below a start level. Without a cycle there are at most as many as vertices, which is
what the fuel counts. -/
def levels : Nat → List Nat → List (List Nat)
  | 0, _ => []
  | fuel + 1, level =>
    match nextLevel next level with
    | [] => [level]
    | below => level :: levels fuel below

end Metalanguage.Digraph
