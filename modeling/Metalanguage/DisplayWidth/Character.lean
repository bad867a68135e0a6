import Metalanguage.CharacterProperty.Combining
import Metalanguage.CharacterProperty.Wide

/-!
# DisplayWidth/Character — how many columns a character takes by itself

A character takes one column of a terminal, two if it is wide, and none if it attaches to another or
does not show.
-/

namespace Metalanguage.DisplayWidth

open CharacterProperty

/-- Signs that are written around what stands behind them, and a caret between letters. -/
def isEnclosingSign (c : Char) : Bool :=
  [0x605, 0x70F, 0x890, 0x891, 0x8E2, 0xA8FA].contains c.toNat

/-- The filler that holds the place of a leading consonant of Hangul, and the Tifinagh joiner, which
shows unless it joins two consonants. -/
def isShownFiller (c : Char) : Bool := [0x115F, 0x2D7F].contains c.toNat

/-- The half-width marks of voicing, which stand behind the letter that they extend. -/
def isVoicingMark (c : Char) : Bool := [0xFF9E, 0xFF9F].contains c.toNat

/-- Whether a character takes no column. -/
def hasNoWidth (c : Char) : Bool :=
  !isShownFiller c && !isVoicingMark c &&
    (isDefaultIgnorable c || isGraphemeExtend c || isHangulTail c || isPrepended c ||
      isEnclosingSign c)

/-- Whether a character is written like two letters: the Khmer vowel of U+17A4. -/
def isTwoLetters (c : Char) : Bool := c.toNat == 0x17A4

/-- Whether a character is written like three letters: the Khmer sign of U+17D8. -/
def isThreeLetters (c : Char) : Bool := c.toNat == 0x17D8

/-- Whether a character is so early in the order that no table says anything of it. -/
def isBasic (c : Char) : Bool := c.toNat ≤ 0xA0

/-- **The columns that a character takes by itself.** -/
def ofChar (c : Char) : Nat :=
  if isBasic c then 1
  else if isThreeLetters c then 3
  else if isTwoLetters c then 2
  else if hasNoWidth c then 0
  else if isWide c then 2
  else 1

end Metalanguage.DisplayWidth
