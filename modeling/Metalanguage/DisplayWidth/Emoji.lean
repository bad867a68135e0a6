import Metalanguage.CharacterProperty.Emoji
import Metalanguage.DisplayWidth.Ligature

/-!
# DisplayWidth/Emoji — sequences of characters that make one picture

A picture takes two columns however many characters it is made of: a person with a skin tone, a flag of
two letters, pictures joined by joiners. A text is measured from its end, so a sequence is begun by its
last character, which counts for the whole picture.
-/

namespace Metalanguage.DisplayWidth

open CharacterProperty

/-- **A picture that is begun**, by the characters that end it. -/
inductive EmojiTail
  /-- A picture, which may be the last of a sequence. -/
  | picture
  /-- A skin tone. -/
  | modifier
  /-- Half of a flag. -/
  | indicator
  /-- Several halves of flags. -/
  | indicators
  /-- A joiner before a picture. -/
  | joined
  /-- The frame of a key before a joiner. -/
  | keycap
  /-- Half of a flag before a joiner. -/
  | joinedIndicator
  /-- An even number of halves of flags before a joiner. -/
  | joinedEven
  /-- An odd number of halves of flags before a joiner, three or more. -/
  | joinedOdd
  /-- The tags of a flag before a joiner: letters at the end, and digits before these. -/
  | tags (letters digits : Nat)
  deriving DecidableEq, Repr

namespace EmojiTail

/-- The frame of a key. -/
def isKeycap (c : Char) : Bool := c.toNat == 0x20E3

/-- The tag that ends the tags of a flag. -/
def isTagEnd (c : Char) : Bool := c.toNat == 0xE007F

/-- The tags that stand for letters. -/
def isTagLetter (c : Char) : Bool := CodeRanges.has [(0xE0061, 0xE007A)] c

/-- The tags that stand for digits. -/
def isTagDigit (c : Char) : Bool := CodeRanges.has [(0xE0030, 0xE0039)] c

/-- The flag that tags stand behind. -/
def isTaggedFlag (c : Char) : Bool := c.toNat == 0x1F3F4

/-- Whether tags name a region: two letters or three digits for a country, and letters behind them for a
part of it, without which only digits stand. -/
def namesRegion (letters digits : Nat) : Bool := if digits = 0 then 3 ≤ letters else digits == 3

/-- The picture that a character begins. -/
def ofChar? (c : Char) : Option EmojiTail :=
  if isEmojiModifier c then some modifier
  else if isRegionalIndicator c then some indicator
  else if isEmoji c then some picture
  else none

/-- What a joiner makes of the picture behind it. -/
def join? : EmojiTail → Option EmojiTail
  | picture | modifier | indicators | joinedEven | joinedOdd => some joined
  | _ => none

/-- What a character before a joiner and a picture makes of them. -/
def extendJoined? (c : Char) : Option (Int × EmojiTail) :=
  if isKeycap c then some (0, keycap)
  else if isRegionalIndicator c then some (1, joinedIndicator)
  else if isEmojiModifier c then some (0, modifier)
  else if isTagEnd c then some (0, tags 0 0)
  else if isEmoji c then some (0, picture)
  else none

/-- What a character before the tags of a flag makes of them. -/
def extendTags? (letters digits : Nat) (c : Char) : Option (Int × EmojiTail) :=
  if isTagLetter c && digits == 0 && letters < 6 then some (0, tags (letters + 1) 0)
  else if isTagDigit c && letters ≤ 4 && digits < 3 then some (0, tags letters (digits + 1))
  else if isTaggedFlag c && namesRegion letters digits then some (0, picture)
  else none

/-- **The columns that a character adds which belongs to the picture**, and what is begun then. Before a
joiner the first half of a flag is counted at first, and taken back when the second is found. -/
def extend? (t : EmojiTail) (c : Char) : Option (Int × EmojiTail) :=
  if isJoiner c then t.join?.map (0, ·)
  else
    match t with
    | modifier => if isModifierBase c then some (0, picture) else none
    | indicator | indicators => if isRegionalIndicator c then some (1, indicators) else none
    | joined => extendJoined? c
    | joinedIndicator | joinedOdd => if isRegionalIndicator c then some (-1, joinedEven) else none
    | joinedEven => if isRegionalIndicator c then some (3, joinedOdd) else none
    | tags letters digits => extendTags? letters digits c
    | _ => none

end EmojiTail

end Metalanguage.DisplayWidth
