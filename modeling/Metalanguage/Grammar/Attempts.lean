import Metalanguage.Grammar.Basic

/-!
# Grammar/Attempts — what was expected where a text goes wrong

While a grammar is tried, the rules that fail are noted at the furthest place where one fails. A rule
takes the place of those it consists of that fail where it begins, unless there is just one of them.
`Grammar.trace` reads like `Grammar.read` and keeps these notes.
-/

namespace Metalanguage

/-- The furthest place where a rule fails, and the rules that fail there. -/
structure Attempts where
  offset : Nat
  rules : List Rule
  deriving DecidableEq, Repr

namespace Attempts

/-- No rule has failed yet. -/
def none : Attempts := ⟨0, []⟩

/-- The number of rules noted at a place. -/
def countAt (a : Attempts) (offset : Nat) : Nat := if offset = a.offset then a.rules.length else 0

/-- Notes that `rule` fails where it begins, at `offset`; `before` rules were noted there when it
began. -/
def note (a : Attempts) (rule : Rule) (offset before : Nat) : Attempts :=
  if a.countAt offset = before + 1 then a
  else if offset < a.offset then a
  else if offset = a.offset then ⟨offset, a.rules.take before ++ [rule]⟩
  else ⟨offset, [rule]⟩

end Attempts

namespace Grammar

variable {α : Type}

/-- The rounds of a repetition behind its first, with notes. -/
def traceRounds (body : Cursor → Attempts → Option (α × Cursor) × Attempts) :
    List Char → Cursor → Attempts → (List α × Cursor) × Attempts
  | [], c, a => (([], c), a)
  | _ :: bound, c, a =>
    match body c.skipBlanks a with
    | (.none, a) => (([], c), a)
    | (some (x, d), a) =>
      let ((xs, e), a) := traceRounds body bound d a
      ((x :: xs, e), a)

/-- A repetition of the body, with notes. -/
def traceRepeated (body : Cursor → Attempts → Option (α × Cursor) × Attempts) (c : Cursor)
    (a : Attempts) : (List α × Cursor) × Attempts :=
  match body c a with
  | (.none, a) => (([], c), a)
  | (some (x, d), a) =>
    let ((xs, e), a) := traceRounds body c.rest d a
    ((x :: xs, e), a)

/-- **Reads a text at a place and notes the rules that fail.** -/
def trace : {α : Type} → Grammar α → Cursor → Attempts → Option (α × Cursor) × Attempts
  | _, .empty, c, a => (some ((), c), a)
  | _, .mark m, c, a => (c.mark? m, a)
  | _, .script, c, a => (c.script?, a)
  | _, .literal, c, a => (c.literal?, a)
  | _, .finish, c, a => (c.finish?, a)
  | _, .seq first second, c, a =>
    match trace first c a with
    | (.none, a) => (.none, a)
    | (some (x, d), a) =>
      match trace second d.skipBlanks a with
      | (.none, a) => (.none, a)
      | (some (y, e), a) => (some ((x, y), e), a)
  | _, .either first second, c, a =>
    match trace first c a with
    | (.none, a) => trace second c a
    | (some result, a) => (some result, a)
  | _, .many body, c, a =>
    let (result, a) := traceRepeated (trace body) c a
    (some result, a)
  | _, .named rule body, c, a =>
    match trace body c a with
    | (.none, b) => (.none, b.note rule c.offset (a.countAt c.offset))
    | (some result, b) => (some result, b)
  | _, .placed body, c, a =>
    match trace body c a with
    | (.none, a) => (.none, a)
    | (some (x, d), a) => (some ((⟨c.offset, d.offset⟩, x), d), a)
  | _, .map f body, c, a =>
    match trace body c a with
    | (.none, a) => (.none, a)
    | (some (x, d), a) => (some (f x, d), a)

/-- The furthest place where a rule fails on a whole text, and the rules that fail there. -/
def attempts (g : Grammar α) (cs : List Char) : Attempts := (g.trace (.start cs) .none).2

end Grammar

end Metalanguage
