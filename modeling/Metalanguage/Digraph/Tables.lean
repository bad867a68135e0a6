import Metalanguage.Loop
import Metalanguage.Ordered

/-!
# Digraph/Tables — search and levels by loops over tables

A graph can be kept in two tables: which arcs leave a vertex, and where an arc leads. The depth-first
search then is one loop over an explicit path, with a mark on each vertex, so that no depth of the
graph is too much for it; the levels are a loop that adds one level after the other and looks at no
marks. Both say when they ask for a place that a table does not have.
-/

namespace Metalanguage.Digraph

/-- **A graph in tables.** -/
structure Tables where
  /-- The arcs that leave a vertex, by their numbers, in the order in which they are followed. -/
  leaving : List (List Nat)
  /-- The vertex that an arc leads to. -/
  heads : List Nat

/-! ## The search -/

/-- What is done in the search. -/
inductive Act
  /-- A vertex is looked at as a start. -/
  | look (v : Nat)
  /-- A vertex comes onto the path. -/
  | push (v : Nat)
  /-- An arc is followed. -/
  | follow (arc : Nat)
  /-- A vertex goes from the path, and is settled. -/
  | pop (v : Nat)
  deriving DecidableEq, Repr

/-- **Where the search stands.** -/
structure Search where
  /-- The next vertex to look at as a start. -/
  start : Nat
  /-- The vertices all of whose arcs have been followed. -/
  settled : List Bool
  /-- The vertices on the path. -/
  visiting : List Bool
  /-- The path from its tip back to its start; with each vertex, how many of its arcs have been
  followed. -/
  path : List (Nat × Nat)
  /-- What has been done, last first. The search does not look at it. -/
  done : List Act

namespace Search

/-- Where the search of a graph begins. -/
def initial (g : Tables) : Search :=
  let none := List.replicate g.leaving.length false
  ⟨0, none, none, [], []⟩

/-- The walk that an arc from the tip of the path to `w` closes: from `w` on the path to the tip, and
back to `w`. -/
def closing (path : List (Nat × Nat)) (w : Nat) : List Nat :=
  let walk := (path.map (·.1)).reverse
  walk.drop ((walk.findIdx? (· == w)).getD 0) ++ [w]

/-- A round without path: the next start is looked at. -/
def restart (g : Tables) (s : Search) : Except Halt (Turn Search (Option (List Nat))) := do
  let v := s.start
  if v < g.leaving.length then
    if ← Table.entry s.settled v then
      return .again { s with start := v + 1, done := .look v :: s.done }
    else
      return .again { s with
        start := v + 1, visiting := ← Table.put s.visiting v true, path := [(v, 0)],
        done := .push v :: .look v :: s.done }
  else return .stop s none

/-- A round with `v` at the tip of the path, `k` of whose arcs have been followed: the next one is, or
there is none. -/
def advance (g : Tables) (s : Search) (v k : Nat) (rest : List (Nat × Nat)) :
    Except Halt (Turn Search (Option (List Nat))) := do
  match (← Table.entry g.leaving v)[k]? with
  | some arc =>
    let w ← Table.entry g.heads arc
    let s := { s with path := (v, k + 1) :: rest, done := .follow arc :: s.done }
    if ← Table.entry s.visiting w then return .stop s (some (closing s.path w))
    else if ← Table.entry s.settled w then return .again s
    else
      return .again { s with
        visiting := ← Table.put s.visiting w true, path := (w, 0) :: s.path,
        done := .push w :: s.done }
  | none =>
    return .again { s with
      visiting := ← Table.put s.visiting v false, settled := ← Table.put s.settled v true,
      path := rest, done := .pop v :: s.done }

/-- **A round of the search.** It ends with a closed walk, or with none when no start is left. -/
def round (g : Tables) (s : Search) : Except Halt (Turn Search (Option (List Nat))) :=
  match s.path with
  | [] => s.restart g
  | (v, k) :: rest => s.advance g v k rest

end Search

/-! ## The levels -/

/-- Takes out the entries that are equal to the one behind them. -/
def dropRepeats : List Nat → List Nat
  | a :: b :: l => if a == b then dropRepeats (b :: l) else a :: dropRepeats (b :: l)
  | l => l

/-- **A round of the levels**: the vertices that the arcs out of the last level lead to are the next
one. It ends when there are none; no other way to end is there. -/
def levelsRound (g : Tables) (levels : List (List Nat)) :
    Except Halt (Turn (List (List Nat)) Unit) := do
  let last ← Table.entry levels (levels.length - 1)
  let heads ← last.mapM fun v => do (← Table.entry g.leaving v).mapM (Table.entry g.heads)
  if heads.flatten.isEmpty then return .stop levels ()
  else return .again (levels ++ [dropRepeats (Ordered.sort compare heads.flatten)])

end Metalanguage.Digraph
