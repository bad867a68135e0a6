import Metalanguage.Grammar.Rule
import Metalanguage.Literal
import Metalanguage.Position
import Metalanguage.Script

/-!
# Grammar — grammars as data, and how they read a text

A `Grammar α` describes texts that stand for values of type `α`. `Grammar.read` tries it at a place of
a text: the first alternative that fits is taken for good, a repetition takes as much as it can, and
blanks are passed over between the parts of a sequence and between the rounds of a repetition.
-/

namespace Metalanguage

/-! ## Places in a text -/

/-- What may stand between the parts of a text. -/
def isBlank (c : Char) : Bool := c == ' ' || c == '\t' || c == '\r' || c == '\n'

/-- The size of a piece of text in bytes. -/
def byteLength (cs : List Char) : Nat := cs.foldl (fun n c => n + c.utf8Size) 0

/-- A place in a text: how many bytes are behind it, and the characters ahead. -/
structure Cursor where
  offset : Nat
  rest : List Char
  deriving DecidableEq, Repr

namespace Cursor

/-- The first place of a text. -/
def start (cs : List Char) : Cursor := ⟨0, cs⟩

/-- Passes over blanks. -/
def skip (offset : Nat) : List Char → Cursor
  | [] => ⟨offset, []⟩
  | c :: cs => if isBlank c then skip (offset + c.utf8Size) cs else ⟨offset, c :: cs⟩

/-- The next place that holds no blank. -/
def skipBlanks (c : Cursor) : Cursor := skip c.offset c.rest

/-- Passes over the character `mark`. -/
def mark? (mark : Char) : Cursor → Option (Unit × Cursor)
  | ⟨offset, c :: cs⟩ => if c == mark then some ((), ⟨offset + mark.utf8Size, cs⟩) else none
  | ⟨_, []⟩ => none

/-- Passes over the longest run of script characters, which must not be empty. -/
def script? (c : Cursor) : Option (String × Cursor) :=
  match c.rest.span Script.isScriptChar with
  | ([], _) => none
  | (run, rest) => some (String.ofList run, ⟨c.offset + byteLength run, rest⟩)

/-- Passes over a literal. -/
def literal? (c : Cursor) : Option (Literal × Cursor) :=
  (Literal.scan? c.rest).map fun (l, rest) =>
    (l, ⟨c.offset + byteLength l.display.toList, rest⟩)

/-- Whether the text is over. -/
def finish? : Cursor → Option (Unit × Cursor)
  | ⟨offset, []⟩ => some ((), ⟨offset, []⟩)
  | _ => none

end Cursor

/-! ## Grammars -/

/-- **A grammar** of texts that stand for values. -/
inductive Grammar : Type → Type 1
  /-- The empty text. -/
  | empty : Grammar Unit
  /-- A text of one given character. -/
  | mark (c : Char) : Grammar Unit
  /-- A run of script characters, as long as possible. -/
  | script : Grammar String
  /-- A literal with its angle brackets. -/
  | literal : Grammar Literal
  /-- The end of the whole text. -/
  | finish : Grammar Unit
  /-- One text after the other, with any blanks between them. -/
  | seq {α β : Type} (first : Grammar α) (second : Grammar β) : Grammar (α × β)
  /-- Either of two texts; the second only where the first does not fit. -/
  | either {α : Type} (first second : Grammar α) : Grammar α
  /-- Any number of texts, with any blanks between them. -/
  | many {α : Type} (body : Grammar α) : Grammar (List α)
  /-- A text by the name of its rule. -/
  | named {α : Type} (rule : Rule) (body : Grammar α) : Grammar α
  /-- A text together with its place. -/
  | placed {α : Type} (body : Grammar α) : Grammar (ByteRange × α)
  /-- A text with another value. -/
  | map {α β : Type} (f : α → β) (body : Grammar α) : Grammar β

namespace Grammar

variable {α β : Type}

/-- One text after the other; the value is that of the second. -/
def seqRight (first : Grammar α) (second : Grammar β) : Grammar β := .map (·.2) (.seq first second)

/-- One text after the other; the value is that of the first. -/
def seqLeft (first : Grammar α) (second : Grammar β) : Grammar α := .map (·.1) (.seq first second)

/-- A text between two marks. -/
def between (opening closing : Char) (body : Grammar α) : Grammar α :=
  seqRight (.mark opening) (seqLeft body (.mark closing))

/-- A text or nothing. -/
def optional (body : Grammar α) : Grammar (Option α) :=
  .either (.map some body) (.map (fun _ => none) .empty)

/-- One text or more. -/
def some1 (body : Grammar α) : Grammar (List α) :=
  .map (fun (x, xs) => x :: xs) (.seq body (.many body))

/-- One text or more, with a mark between them. -/
def separated (separator : Char) (body : Grammar α) : Grammar (List α) :=
  .map (fun (x, xs) => x :: xs) (.seq body (.many (seqRight (.mark separator) body)))

/-! ## Reading -/

/-- The rounds of a repetition behind its first: blanks are passed over, and then the body must fit, or
else the repetition ends before the blanks. `bound` has a character for every try that there can be. -/
def rounds (body : Cursor → Option (α × Cursor)) : List Char → Cursor → List α × Cursor
  | [], c => ([], c)
  | _ :: bound, c =>
    match body c.skipBlanks with
    | none => ([], c)
    | some (x, d) =>
      let (xs, e) := rounds body bound d
      (x :: xs, e)

/-- A repetition of the body. A round that fits takes a character at least, so what the text holds
before the first round bounds the number of tries behind it, the last, which fails, among them. -/
def repeated (body : Cursor → Option (α × Cursor)) (c : Cursor) : List α × Cursor :=
  match body c with
  | none => ([], c)
  | some (x, d) =>
    let (xs, e) := rounds body c.rest d
    (x :: xs, e)

/-- **Reads a text at a place**: its value, and the place behind it. -/
def read : {α : Type} → Grammar α → Cursor → Option (α × Cursor)
  | _, .empty, c => some ((), c)
  | _, .mark m, c => c.mark? m
  | _, .script, c => c.script?
  | _, .literal, c => c.literal?
  | _, .finish, c => c.finish?
  | _, .seq first second, c =>
    match read first c with
    | none => none
    | some (x, d) =>
      match read second d.skipBlanks with
      | none => none
      | some (y, e) => some ((x, y), e)
  | _, .either first second, c =>
    match read first c with
    | none => read second c
    | some result => some result
  | _, .many body, c => some (repeated (read body) c)
  | _, .named _ body, c => read body c
  | _, .placed body, c =>
    match read body c with
    | none => none
    | some (x, d) => some ((⟨c.offset, d.offset⟩, x), d)
  | _, .map f body, c =>
    match read body c with
    | none => none
    | some (x, d) => some (f x, d)

end Grammar

end Metalanguage
