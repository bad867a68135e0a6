/-!
# Lines — texts cut into lines

A text is cut at a character, and blank space is taken off the ends of a line. Blank space is what has
the Unicode property White_Space.
-/

namespace Metalanguage.Lines

/-- Cuts a text at each `separator`; there is one piece more than separators. -/
def cut (separator : Char) (cs : List Char) : List (List Char) :=
  cs.foldr
    (fun c pieces =>
      match pieces with
      | [] => [[c]]
      | piece :: rest => if c == separator then [] :: piece :: rest else (c :: piece) :: rest)
    [[]]

/-- The characters with the property White_Space. -/
def isWhiteSpace (c : Char) : Bool :=
  let n := c.toNat
  (0x9 ≤ n && n ≤ 0xD) || n == 0x20 || n == 0x85 || n == 0xA0 || n == 0x1680 ||
    (0x2000 ≤ n && n ≤ 0x200A) || n == 0x2028 || n == 0x2029 || n == 0x202F || n == 0x205F ||
    n == 0x3000

/-- Takes white space off both ends. -/
def trim (cs : List Char) : List Char :=
  ((cs.dropWhile isWhiteSpace).reverse.dropWhile isWhiteSpace).reverse

end Metalanguage.Lines
