import Metalanguage.CharacterProperty.Joining
import Metalanguage.DisplayWidth.Character

/-!
# DisplayWidth/Ligature — letters that join into fewer columns

Some scripts write certain letters as one shape when they follow each other, in part only when a joiner
stands between them. A text is measured from its end, so a ligature is begun by its last letter and
completed by the letters before it.
-/

namespace Metalanguage.DisplayWidth

open CharacterProperty

/-- Whether a character is the zero width joiner. -/
def isJoiner (c : Char) : Bool := c.toNat == 0x200D

/-- **A ligature that is begun**, by the letter or letters that end it. `joined` says that a joiner
stands before them. -/
inductive Ligature
  /-- An Arabic alef, which joins a lam. -/
  | alef
  /-- A Hebrew lamed, which joins an alef by a joiner. -/
  | lamed (joined : Bool)
  /-- A Buginese ya, which joins the vowel sign i by a joiner, and with it the letter a. -/
  | ya (joined : Bool)
  /-- The Buginese vowel sign i with ya joined to it. -/
  | vowelAndYa
  /-- A Tifinagh consonant, which joins another by a joiner of either kind. -/
  | tifinagh (joined : Bool)
  /-- A Tifinagh consonant behind the joiner of the script. -/
  | tifinaghJoiner
  /-- A Lisu tone letter that joins another tone letter. -/
  | lisuTone
  /-- An Old Turkic i, which joins the letter before it by a joiner. -/
  | orkhonI (joined : Bool)
  /-- A Khmer letter that is written below another behind the sign for it. -/
  | khmer
  deriving DecidableEq, Repr

namespace Ligature

/-! ## The letters -/

/-- The Arabic letters of the form of alef. -/
def isAlef (c : Char) : Bool :=
  CodeRanges.has [(0x622, 0x623), (0x625, 0x625), (0x627, 0x627), (0x671, 0x673), (0x675, 0x675),
    (0x773, 0x774), (0x870, 0x882)] c

/-- The Arabic letters of the form of lam. -/
def isLam (c : Char) : Bool :=
  CodeRanges.has [(0x644, 0x644), (0x6B5, 0x6B8), (0x76A, 0x76A), (0x8A6, 0x8A6), (0x8C7, 0x8C7)] c

/-- The Tifinagh consonants. -/
def isTifinagh (c : Char) : Bool := CodeRanges.has [(0x2D31, 0x2D65), (0x2D6F, 0x2D6F)] c

/-- The Khmer letters that can be written below another. -/
def isKhmer (c : Char) : Bool :=
  CodeRanges.has [(0x1780, 0x1782), (0x1784, 0x1787), (0x1789, 0x178C), (0x178E, 0x1793),
    (0x1795, 0x1798), (0x179B, 0x179D), (0x17A0, 0x17A0), (0x17A2, 0x17A2), (0x17A7, 0x17A7),
    (0x17AB, 0x17AC), (0x17AF, 0x17AF)] c

/-- The Lisu tone letters that come first of two. -/
def isFirstTone (c : Char) : Bool := CodeRanges.has [(0xA4F8, 0xA4FB)] c

/-- The Lisu tone letters that come second of two. -/
def isSecondTone (c : Char) : Bool := CodeRanges.has [(0xA4FC, 0xA4FD)] c

/-- The ligature that a character begins. -/
def ofChar? (c : Char) : Option Ligature :=
  if isAlef c then some alef
  else if c.toNat == 0x5DC then some (lamed false)
  else if c.toNat == 0x1A10 then some (ya false)
  else if isTifinagh c then some (tifinagh false)
  else if isSecondTone c then some lisuTone
  else if c.toNat == 0x10C03 then some (orkhonI false)
  else if isKhmer c then some khmer
  else none

/-! ## Reading on towards the start -/

/-- The ligature behind a joiner. -/
def join : Ligature → Ligature
  | lamed _ => lamed true
  | ya _ => ya true
  | tifinagh _ => tifinagh true
  | orkhonI _ => orkhonI true
  | l => l

/-- The ligature behind a character that does not break it: for Arabic a mark that lets letters join,
for the other scripts a joiner or a mark that does not show. -/
def pass? (l : Ligature) (c : Char) : Option Ligature :=
  if l = alef then
    if ofChar c = 0 && !isJoiningBarrier c then some alef else none
  else if isJoiner c then some l.join
  else if isIgnorableMark c then some l
  else none

/-- The columns that a character adds which belongs to the ligature, and what of the ligature is still
open. Columns are taken back where the letter behind was counted without its neighbour. -/
def complete? (l : Ligature) (c : Char) : Option (Int × Option Ligature) :=
  match l with
  | alef => if isLam c then some (0, none) else none
  | lamed true => if c.toNat == 0x5D0 then some (0, none) else none
  | ya true => if c.toNat == 0x1A17 then some (0, some vowelAndYa) else none
  | vowelAndYa => if c.toNat == 0x1A15 then some (0, none) else none
  | tifinagh joined =>
    if c.toNat == 0x2D7F then some (1, some tifinaghJoiner)
    else if joined && isTifinagh c then some (0, none)
    else none
  | tifinaghJoiner => if isTifinagh c then some (-1, none) else none
  | lisuTone => if isFirstTone c then some (0, none) else none
  | orkhonI true => if c.toNat == 0x10C32 then some (0, none) else none
  | khmer => if c.toNat == 0x17D2 then some (-1, none) else none
  | _ => none

/-- The columns that a character adds before a ligature that it belongs to or does not break. -/
def extend? (l : Ligature) (c : Char) : Option (Int × Option Ligature) :=
  match l.pass? c with
  | some l => some (0, some l)
  | none => l.complete? c

end Ligature

end Metalanguage.DisplayWidth
