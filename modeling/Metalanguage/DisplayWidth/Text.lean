import Metalanguage.DisplayWidth.Emoji

/-!
# DisplayWidth/Text — how many columns a line of text takes

A line takes the columns of its characters, but for those that make a ligature or a picture together and
for those that a variation selector changes. It is measured from its end: the `Trail` says what of the
line behind a character matters for it.
-/

namespace Metalanguage.DisplayWidth

open CharacterProperty

/-! ## Variation selectors -/

/-- The variation selectors that change how many columns a character takes. -/
inductive Selector
  /-- Asks for text instead of a picture. -/
  | text
  /-- Asks for a picture instead of text. -/
  | picture
  /-- Asks for the full-width form of a quotation mark. -/
  | fullWidth
  deriving DecidableEq, Repr

namespace Selector

/-- The selector that a character is. -/
def ofChar? (c : Char) : Option Selector :=
  if c.toNat == 0xFE0E then some text
  else if c.toNat == 0xFE0F then some picture
  else if c.toNat == 0xFE01 then some fullWidth
  else none

/-- The enclosed ideographs, which are wide as text too. -/
def isEnclosedIdeograph (c : Char) : Bool := CodeRanges.has [(0x1F200, 0x1F2FF)] c

/-- The quotation marks that have a full-width form. -/
def isQuotationMark (c : Char) : Bool := CodeRanges.has [(0x2018, 0x2019), (0x201C, 0x201D)] c

/-- Whether a selector behind a character changes how it is shown. -/
def appliesTo (s : Selector) (c : Char) : Bool :=
  match s with
  | text => isVariationBase c && CharacterProperty.isEmoji c && !isEnclosedIdeograph c
  | picture => isVariationBase c
  | fullWidth => isQuotationMark c

end Selector

/-! ## What stands behind a character -/

/-- What is begun behind a character. -/
inductive Begun
  /-- Nothing that a character before it could belong to. -/
  | nothing
  /-- Letters that may join the letter before them. -/
  | ligature (l : Ligature)
  /-- A picture that the character before it may belong to. -/
  | emoji (t : EmojiTail)
  /-- The Kirat Rai vowel sign e, which makes one sign with some before it. -/
  | vowelE
  /-- The Kirat Rai vowel sign ai, which is made of two signs e. -/
  | vowelAi
  deriving DecidableEq, Repr

namespace Begun

/-- What a character begins. -/
def ofChar (c : Char) : Begun :=
  match EmojiTail.ofChar? c, Ligature.ofChar? c with
  | some t, _ => emoji t
  | none, some l => ligature l
  | none, none =>
    if c.toNat == 0x16D67 then vowelE
    else if c.toNat == 0x16D68 then vowelAi
    else nothing

/-- The columns that a character adds which belongs to what is begun, and what is begun then. -/
def extend? (b : Begun) (c : Char) : Option (Int × Begun) :=
  match b with
  | nothing => none
  | ligature l =>
    (l.extend? c).map fun (columns, rest) => (columns, (rest.map ligature).getD nothing)
  | emoji t => (t.extend? c).map fun (columns, t) => (columns, emoji t)
  | vowelE =>
    if c.toNat == 0x16D63 || c.toNat == 0x16D69 then some (0, nothing)
    else if c.toNat == 0x16D67 then some (0, vowelAi)
    else if c.toNat == 0x16D68 then some (1, vowelE)
    else none
  | vowelAi => if c.toNat == 0x16D63 then some (0, nothing) else none

/-- Whether a selector leaves what is begun behind it as it is: a selector breaks no ligature, and one that
asks for a picture turns the character before it into the one that a joiner, or the frame of a key, joins
to a picture. -/
def admits (b : Begun) (s : Selector) : Bool :=
  match b with
  | ligature _ => true
  | emoji .joined | emoji .keycap => s = .picture
  | _ => false

/-- Whether a picture is begun. -/
def isEmoji : Begun → Bool
  | emoji _ => true
  | _ => false

/-- Whether a ligature is begun. -/
def isLigature : Begun → Bool
  | ligature _ => true
  | _ => false

end Begun

/-- **What of the text behind a character matters for it**: what is begun there, and the selectors that
stand between it and the character. -/
structure Trail where
  begun : Begun
  selectors : List Selector
  deriving DecidableEq, Repr

namespace Trail

/-- The trail of a character behind which only `begun` matters. -/
def of (begun : Begun) : Trail := ⟨begun, []⟩

/-- Nothing behind the character matters. -/
def nothing : Trail := of .nothing

/-- Whether one of the selectors asks for `s` and the character before it has such a form. -/
def selects (k : Trail) (s : Selector) (c : Char) : Bool := k.selectors.contains s && s.appliesTo c

/-- The trail before a selector. Several selectors count together only before a ligature. -/
def select (k : Trail) (s : Selector) : Trail :=
  ⟨if k.begun.admits s then k.begun else .nothing,
    if k.begun.isLigature then k.selectors.insert s else [s]⟩

/-- The trail behind a character that has no form as a picture. What is begun stays only if nothing asks
for a picture, or if it is a ligature. -/
def withoutPicture (k : Trail) : Trail :=
  if k.begun.isLigature then ⟨k.begun, k.selectors.filter (· != .picture)⟩
  else if k.selectors.contains .picture then nothing
  else k

/-- The columns that a character adds which no selector changes, and the trail of the character before
it. -/
def plain (behind : Begun) (c : Char) : Int × Trail :=
  match behind.extend? c with
  | some (columns, begun) => (columns, of begun)
  | none => (ofChar c, of (.ofChar c))

/-- The columns that a character adds which does not become a picture, and the trail of the character
before it. -/
def textual (k : Trail) (c : Char) : Int × Trail :=
  if isBasic c then (1, nothing)
  else
    match Selector.ofChar? c with
    | some s => (0, k.select s)
    | none =>
      if k.selects .text c then (1, nothing)
      else if k.selects .fullWidth c then (2, nothing)
      else plain k.begun c

/-- **The columns that a character adds before a trail**, and the trail of the character before it. A
picture that is joined to another one adds no column. -/
def step (k : Trail) (c : Char) : Int × Trail :=
  if k.selects .picture c then (if k.begun.isEmoji then 0 else 2, of (.emoji .picture))
  else k.withoutPicture.textual c

end Trail

/-- **The columns that a line of text takes.** -/
def ofText (cs : List Char) : Nat :=
  (cs.foldr
    (fun c (sum, trail) =>
      let (columns, trail) := trail.step c
      (sum + columns, trail))
    ((0 : Int), Trail.nothing)).1.toNat

end Metalanguage.DisplayWidth
