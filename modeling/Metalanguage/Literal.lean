/-!
# Literal — free text attached to words and sentences

A literal is written between angle brackets. Its body is kept as written: a backslash takes the next
character with it, so that `>` can stand in a body. `Literal.ofText` escapes a text, `Literal.text`
takes the escapes away, and `text_ofText` says that nothing is lost on the way.
-/

namespace Metalanguage

/-- **A literal**, by its body as written between the angle brackets. -/
structure Literal where
  raw : String
  deriving DecidableEq, Repr

namespace Literal

instance : Ord Literal := ⟨compareOn (·.raw)⟩

/-! ## Escapes -/

/-- The characters that are escaped in a body. -/
def isSpecial (c : Char) : Bool := c == '\\' || c == '<' || c == '>'

/-- Puts a backslash before each special character. -/
def escape : List Char → List Char
  | [] => []
  | c :: rest => if isSpecial c then '\\' :: c :: escape rest else c :: escape rest

/-- Takes the escaping backslashes away; a backslash at the very end goes too. -/
def unescape : List Char → List Char
  | [] => []
  | [c] => if c == '\\' then [] else [c]
  | c :: d :: rest => if c == '\\' then d :: unescape rest else c :: unescape (d :: rest)

/-- The literal that stands for a text. -/
def ofText (text : String) : Literal := ⟨String.ofList (escape text.toList)⟩

/-- The text that a literal stands for. -/
def text (l : Literal) : String := String.ofList (unescape l.raw.toList)

theorem unescape_cons_of_ne {c : Char} (h : c ≠ '\\') (rest : List Char) :
    unescape (c :: rest) = c :: unescape rest := by
  cases rest <;> simp [unescape, h]

theorem unescape_escape : ∀ cs : List Char, unescape (escape cs) = cs
  | [] => rfl
  | c :: rest => by
    simp only [escape]
    split
    · simp [unescape, unescape_escape rest]
    · next h =>
      have hc : c ≠ '\\' := by rintro rfl; exact h rfl
      rw [unescape_cons_of_ne hc, unescape_escape rest]

/-- **A text comes back out of its literal.** -/
theorem text_ofText (s : String) : (ofText s).text = s := by
  simp [ofText, text, unescape_escape]

/-! ## Written form -/

/-- The literal between its angle brackets. -/
def display (l : Literal) : String := "<" ++ l.raw ++ ">"

/-- Several literals, one after the other. -/
def displayAll (ls : List Literal) : String := String.join (ls.map display)

/-- The longest body at the start of a text, and what follows it. A backslash takes the next character
along; at the very end it stands alone. -/
def scanBody : List Char → List Char × List Char
  | [] => ([], [])
  | [c] => if c == '>' then ([], [c]) else ([c], [])
  | c :: d :: rest =>
    if c == '>' then ([], c :: d :: rest)
    else if c == '\\' then
      let (body, after) := scanBody rest
      (c :: d :: body, after)
    else
      let (body, after) := scanBody (d :: rest)
      (c :: body, after)

/-- The literal at the start of a text, and what follows it. -/
def scan? : List Char → Option (Literal × List Char)
  | '<' :: cs =>
    match scanBody cs with
    | (body, '>' :: rest) => some (⟨String.ofList body⟩, rest)
    | _ => none
  | _ => none

end Literal

end Metalanguage
