/-!
# Position — places in a source text

A place is a count of UTF-8 bytes from the start. A reader is told the line and the column instead,
which count from one; columns count characters.
-/

namespace Metalanguage

/-- A stretch of text, in bytes: from `start` up to, not including, `stop`. -/
structure ByteRange where
  start : Nat
  stop : Nat
  deriving DecidableEq, Repr

/-- A line and a column, both from one. -/
structure LineColumn where
  line : Nat
  column : Nat
  deriving DecidableEq, Repr

namespace LineColumn

/-- The place behind one more character. A line feed starts a new line. -/
def step (p : LineColumn) (c : Char) : LineColumn :=
  if c == '\n' then ⟨p.line + 1, 1⟩ else ⟨p.line, p.column + 1⟩

/-- The place `bytes` further on in the text, from the place `p`. -/
def advance : List Char → Nat → LineColumn → LineColumn
  | [], _, p => p
  | c :: rest, bytes, p =>
    if bytes = 0 then p else advance rest (bytes - c.utf8Size) (p.step c)

/-- The line and the column of the place `bytes` from the start of a text. -/
def ofOffset (text : List Char) (bytes : Nat) : LineColumn := advance text bytes ⟨1, 1⟩

end LineColumn

end Metalanguage
