/-!
# Loop — computations that need not give an answer

A computation over lists can ask for a place that a list does not have, and a loop can go on for ever.
Here both are outcomes (`Halt`): `Table.entry` and `Table.put` say when a place is missing, and `loop`
runs a loop for a number of rounds, so that a loop without exit is one that is unfinished for every
number.
-/

namespace Metalanguage

/-- Why a computation gives no answer. -/
inductive Halt
  /-- A list does not have the place that is asked for. -/
  | outOfRange
  /-- The rounds of a loop are used up. -/
  | unfinished
  deriving DecidableEq, Repr

/-! ## Lists as tables -/

namespace Table

variable {α : Type}

/-- The entry at a place. -/
def entry (l : List α) (i : Nat) : Except Halt α :=
  match l[i]? with
  | some a => .ok a
  | none => .error .outOfRange

/-- The list with `a` at a place. -/
def put (l : List α) (i : Nat) (a : α) : Except Halt (List α) :=
  if i < l.length then .ok (l.set i a) else .error .outOfRange

/-- The table with `a` behind the list at a place. -/
def extend (table : List (List α)) (i : Nat) (a : α) : Except Halt (List (List α)) := do
  put table i ((← entry table i) ++ [a])

/-- The table of `n` lists into which each of the values goes by the place that comes with it. -/
def group (n : Nat) (values : List (Nat × α)) : Except Halt (List (List α)) :=
  values.foldlM (fun table (i, a) => extend table i a) (List.replicate n [])

end Table

/-! ## Loops -/

/-- What a round of a loop leads to: another round, or the end with an answer. -/
inductive Turn (σ α : Type)
  | again (state : σ)
  | stop (state : σ) (answer : α)

variable {σ α : Type}

/-- **A loop of at most so many rounds**: its last state, and its answer. -/
def loop (round : σ → Except Halt (Turn σ α)) : Nat → σ → Except Halt (σ × α)
  | 0, _ => .error .unfinished
  | rounds + 1, s => do
    match ← round s with
    | .again t => loop round rounds t
    | .stop t answer => return (t, answer)

end Metalanguage
