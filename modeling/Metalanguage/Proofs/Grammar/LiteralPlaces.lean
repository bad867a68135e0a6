import Metalanguage.Bracket
import Metalanguage.Proofs.Grammar.Tree

/-!
# Proofs/Grammar/LiteralPlaces — the scan finds literals where the grammar has them

The scan of a text passes literals: from the character that leads out of the zone outside of them to
the one that leads back (`Bracket.literalsFrom`). The rules that a text is read by have stretches
too, those of literals among them (`RuleTree.stretches`). In whatever a grammar spells the two agree
(`Grammar.passes_of_spells`), if its literals stand under their own rule and none of its marks opens
one: each piece of the text starts and ends outside of literals, so the pieces are scanned apart.
-/

namespace Metalanguage

namespace Bracket

/-! ## The literals that a scan passes -/

/-- The zone behind a piece of text. -/
def Zone.behind (zone : Zone) (cs : List Char) : Zone := cs.foldl Zone.next zone

/-- The literals that a scan passes from a zone on, at the place `o`, in the order of the text. `start`
is where the literal began that is open there. One that is never closed is not passed. -/
def literalsFrom : Zone → ℕ → ℕ → List Char → List ByteRange
  | _, _, _, [] => []
  | .outside, _, o, c :: cs => literalsFrom (Zone.outside.next c) o (o + c.utf8Size) cs
  | zone, start, o, c :: cs =>
    let later := literalsFrom (zone.next c) start (o + c.utf8Size) cs
    if zone.next c = .outside then ⟨start, o + c.utf8Size⟩ :: later else later

/-- **The literals that the scan of a whole text passes.** -/
def literalsIn (text : List Char) : List ByteRange := literalsFrom .outside 0 0 text

variable {zone : Zone} {cs ds : List Char}

theorem Zone.behind_append (zone : Zone) (cs ds : List Char) :
    zone.behind (cs ++ ds) = (zone.behind cs).behind ds := List.foldl_append

theorem literalsFrom_cons_of_ne (h : zone ≠ .outside) (start o : ℕ) (c : Char) (cs : List Char) :
    literalsFrom zone start o (c :: cs) =
      if zone.next c = .outside then
        ⟨start, o + c.utf8Size⟩ :: literalsFrom (zone.next c) start (o + c.utf8Size) cs
      else literalsFrom (zone.next c) start (o + c.utf8Size) cs := by
  cases zone with
  | outside => exact absurd rfl h
  | inside => rfl
  | escaped => rfl

/-- Outside of literals none is open. -/
theorem literalsFrom_outside (start start' o : ℕ) (cs : List Char) :
    literalsFrom .outside start o cs = literalsFrom .outside start' o cs := by
  cases cs <;> rfl

/-! ## Zones and literals -/

/-- A literal that is passed begins ahead, unless it is open; and it ends ahead. -/
theorem bounds_of_mem_literalsFrom : ∀ {cs : List Char} {zone : Zone} {start o : ℕ} {r : ByteRange},
    r ∈ literalsFrom zone start o cs →
      (o ≤ r.start ∨ zone ≠ .outside ∧ r.start = start) ∧ o < r.stop
  | [], _, _, _, _, h => nomatch h
  | c :: cs, zone, start, o, r, h => by
    have hpos := c.utf8Size_pos
    by_cases hzone : zone = .outside
    · subst hzone
      obtain ⟨hstart | ⟨-, hstart⟩, hstop⟩ := @bounds_of_mem_literalsFrom cs _ _ _ _ h
      · exact ⟨.inl (by omega), by omega⟩
      · exact ⟨.inl (by omega), by omega⟩
    · have hlater : r ∈ literalsFrom (zone.next c) start (o + c.utf8Size) cs →
          (o ≤ r.start ∨ zone ≠ .outside ∧ r.start = start) ∧ o < r.stop := fun h => by
        obtain ⟨hstart | ⟨-, hstart⟩, hstop⟩ := bounds_of_mem_literalsFrom h
        · exact ⟨.inl (by omega), by omega⟩
        · exact ⟨.inr ⟨hzone, hstart⟩, by omega⟩
      rw [literalsFrom_cons_of_ne hzone] at h
      split at h
      · rcases List.mem_cons.1 h with rfl | h
        · exact ⟨.inr ⟨hzone, rfl⟩, Nat.lt_add_of_pos_right hpos⟩
        · exact hlater h
      · exact hlater h

/-- A literal that is open is passed when the scan comes to lie outside. -/
theorem exists_open_literal : ∀ {cs : List Char} {zone : Zone} {start o : ℕ}, zone ≠ .outside →
    zone.behind cs = .outside → ∃ r ∈ literalsFrom zone start o cs, r.start = start
  | [], _, _, _, hzone, h => absurd h hzone
  | c :: cs, zone, start, o, hzone, h => by
    rw [literalsFrom_cons_of_ne hzone]
    split
    case isTrue _ => exact ⟨_, List.mem_cons_self, rfl⟩
    case isFalse hnext => exact exists_open_literal hnext h

/-- **A character is scanned within a literal** exactly if it stands between the brackets of one that
is passed, where the text ends outside of literals. -/
theorem behind_ne_outside_iff : ∀ {before : List Char} {zone : Zone} {start o : ℕ} {after : List Char},
    (zone ≠ .outside → start < o) → zone.behind (before ++ after) = .outside →
      (zone.behind before ≠ .outside ↔ ∃ r ∈ literalsFrom zone start o (before ++ after),
        r.start < o + byteLength before ∧ o + byteLength before < r.stop)
  | [], zone, start, o, after, hstart, hclosed => by
    constructor
    · intro hzone
      obtain ⟨r, hr, rfl⟩ := @exists_open_literal _ _ start o hzone hclosed
      exact ⟨r, hr, hstart hzone, (bounds_of_mem_literalsFrom hr).2⟩
    · rintro ⟨r, hr, hlt, -⟩ hzone
      obtain ⟨hle | ⟨hne, -⟩, -⟩ := bounds_of_mem_literalsFrom hr
      · exact absurd hlt (Nat.not_lt.2 hle)
      · exact hne hzone
  | c :: before, zone, start, o, after, hstart, hclosed => by
    have hpos := c.utf8Size_pos
    rw [byteLength_cons, ← Nat.add_assoc]
    by_cases hzone : zone = .outside
    · subst hzone
      exact @behind_ne_outside_iff before (Zone.outside.next c) o (o + c.utf8Size) after
        (fun _ => Nat.lt_add_of_pos_right hpos) hclosed
    · have hrest := @behind_ne_outside_iff before (zone.next c) start (o + c.utf8Size) after
        (fun _ => (hstart hzone).trans (Nat.lt_add_of_pos_right hpos)) hclosed
      rw [List.cons_append, literalsFrom_cons_of_ne hzone]
      split
      · -- the literal that ends with `c` is behind
        refine hrest.trans ⟨fun ⟨r, hr, hin⟩ => ⟨r, List.mem_cons_of_mem _ hr, hin⟩, ?_⟩
        rintro ⟨r, hr, hlt, hlt'⟩
        rcases List.mem_cons.1 hr with rfl | hr
        · simp only at hlt'
          omega
        · exact ⟨r, hr, hlt, hlt'⟩
      · exact hrest

/-! ## Pieces that are scanned apart -/

/-- **A scan passes these literals in a piece of text** at the place `o`, which it enters and leaves
outside of literals, whatever follows. -/
structure Passes (o : ℕ) (cs : List Char) (rs : List ByteRange) : Prop where
  behind : Zone.outside.behind cs = .outside
  literals : ∀ start after, literalsFrom .outside start o (cs ++ after) =
    rs ++ literalsFrom .outside start (o + byteLength cs) after

namespace Passes

variable {o : ℕ} {rs rs' : List ByteRange}

theorem append (h : Passes o cs rs) (h' : Passes (o + byteLength cs) ds rs') :
    Passes o (cs ++ ds) (rs ++ rs') where
  behind := by rw [Zone.behind_append, h.behind, h'.behind]
  literals start after := by
    rw [List.append_assoc, h.literals, h'.literals, byteLength_append, List.append_assoc,
      Nat.add_assoc]

theorem nil (o : ℕ) : Passes o [] [] := ⟨rfl, fun _ _ => rfl⟩

/-- Text without the opening bracket holds no literals. -/
theorem of_plain (h : ∀ c ∈ cs, c ≠ '<') (o : ℕ) : Passes o cs [] := by
  induction cs generalizing o with
  | nil => exact nil o
  | cons c cs ih =>
    obtain ⟨hc, hcs⟩ := List.forall_mem_cons.1 h
    have hnext : Zone.outside.next c = .outside := by simp [Zone.next, hc]
    have hfirst : Passes o [c] [] := by
      refine ⟨hnext, fun start after => ?_⟩
      rw [List.singleton_append, literalsFrom, hnext, literalsFrom_outside o start]
      simp
    exact hfirst.append (ih hcs (o + byteLength [c]))

theorem of_blank (h : Blank cs) (o : ℕ) : Passes o cs [] := of_plain (fun c hc => by
  rintro rfl
  exact Bool.false_ne_true (h _ hc)) o

/-- The body of a literal is passed up to the bracket that closes it. -/
theorem literalsFrom_body {body : List Char} (h : LiteralBody body) (start o : ℕ)
    (after : List Char) : literalsFrom .inside start o (body ++ '>' :: after) =
      ⟨start, o + byteLength (body ++ ['>'])⟩ ::
        literalsFrom .outside start (o + byteLength (body ++ ['>'])) after := by
  have hinside : Zone.inside ≠ .outside := by decide
  induction h generalizing o with
  | nil => rfl
  | @escaped c cs _ ih =>
    have hstep : literalsFrom .inside start o ('\\' :: c :: (cs ++ '>' :: after)) =
        literalsFrom .inside start (o + '\\'.utf8Size + c.utf8Size) (cs ++ '>' :: after) := rfl
    rw [List.cons_append, List.cons_append, hstep, ih]
    simp only [List.cons_append, byteLength_cons, Nat.add_assoc]
  | @plain c cs hb hc _ ih =>
    have hnext : Zone.inside.next c = .inside := by simp [Zone.next, hb, hc]
    rw [List.cons_append, literalsFrom_cons_of_ne hinside, hnext, if_neg hinside, ih]
    simp only [List.cons_append, byteLength_cons, Nat.add_assoc]

theorem behind_body {body : List Char} (h : LiteralBody body) :
    Zone.inside.behind body = .inside := by
  induction h with
  | nil => rfl
  | escaped c _ ih => exact ih
  | @plain c cs hb hc _ ih =>
    have hnext : Zone.inside.next c = .inside := by simp [Zone.next, hb, hc]
    rw [Zone.behind, List.foldl_cons, hnext]
    exact ih

/-- **A literal is passed** from its opening bracket to its closing one. -/
theorem of_body {body : List Char} (h : LiteralBody body) (o : ℕ) :
    Passes o ('<' :: (body ++ ['>'])) [⟨o, o + byteLength ('<' :: (body ++ ['>']))⟩] where
  behind := by
    have hopen : Zone.outside.behind ('<' :: (body ++ ['>'])) = Zone.inside.behind (body ++ ['>']) :=
      rfl
    rw [hopen, Zone.behind_append, behind_body h]
    rfl
  literals start after := by
    have hopen : literalsFrom .outside start o ('<' :: (body ++ '>' :: after)) =
        literalsFrom .inside o (o + '<'.utf8Size) (body ++ '>' :: after) := rfl
    rw [List.cons_append, List.append_assoc, List.singleton_append, hopen, literalsFrom_body h,
      byteLength_cons, ← Nat.add_assoc, literalsFrom_outside o start]
    rfl

end Passes

end Bracket

/-! ## Stretches of rules -/

mutual

/-- The stretches that the rules of one name stand for, in the order of the text. -/
def RuleTree.stretches (rule : Rule) : RuleTree → List ByteRange
  | .node rule' range inner =>
    (if rule' = rule then [range] else []) ++ RuleTree.stretchesAll rule inner

/-- The same for several trees. -/
def RuleTree.stretchesAll (rule : Rule) : List RuleTree → List ByteRange
  | [] => []
  | t :: ts => t.stretches rule ++ RuleTree.stretchesAll rule ts

end

namespace RuleTree

theorem stretchesAll_append (rule : Rule) (ts us : List RuleTree) :
    stretchesAll rule (ts ++ us) = stretchesAll rule ts ++ stretchesAll rule us := by
  induction ts with
  | nil => rfl
  | cons t ts ih => rw [List.cons_append, stretchesAll, stretchesAll, ih, List.append_assoc]

theorem stretchesAll_singleton (rule rule' : Rule) (range : ByteRange) (inner : List RuleTree) :
    stretchesAll rule [.node rule' range inner] =
      (if rule' = rule then [range] else []) ++ stretchesAll rule inner := by
  rw [stretchesAll, stretchesAll, List.append_nil, stretches]

end RuleTree

namespace Grammar

open Metalanguage.Bracket

/-! ## Grammars that name their literals -/

/-- Whether a grammar is that of a literal, without a rule around it. -/
def isUnnamedLiteral : {α : Type} → Grammar α → Bool
  | _, .literal => true
  | _, _ => false

/-- **Whether literals stand under their own rule**, with nothing else under it, and no mark opens
one. -/
def namesLiterals : {α : Type} → Grammar α → Bool
  | _, .empty => true
  | _, .mark c => c != '<'
  | _, .script => true
  | _, .literal => false
  | _, .finish => true
  | _, .seq first second => namesLiterals first && namesLiterals second
  | _, .either first second => namesLiterals first && namesLiterals second
  | _, .many body => namesLiterals body
  | _, .named rule body => if rule = .literal then body.isUnnamedLiteral else namesLiterals body
  | _, .placed body => namesLiterals body
  | _, .map _ body => namesLiterals body

variable {α : Type}

/-- What the rule of a literal stands for is passed as one. -/
theorem passes_of_isUnnamedLiteral {body : Grammar α} (h : body.isUnnamedLiteral = true) {o : ℕ}
    {cs : List Char} {x : α} {ts : List RuleTree} (hs : Spells body.annotated o cs (x, ts)) :
    ts = [] ∧ Passes o cs [⟨o, o + byteLength cs⟩] := by
  cases body with
  | literal =>
    obtain ⟨_, ⟨body, hbody, rfl, -⟩, heq⟩ := hs
    obtain ⟨-, rfl⟩ := Prod.mk.inj heq
    exact ⟨rfl, .of_body hbody o⟩
  | _ => cases h

theorem passes_of_rounds {body : Grammar α}
    (hbody : ∀ {o cs x ts}, Spells body.annotated o cs (x, ts) →
      Passes o cs (RuleTree.stretchesAll .literal ts)) {o : ℕ} {cs : List Char}
    {l : List (α × List RuleTree)} (hl : Rounds (Spells body.annotated) o cs l) :
    Passes o cs (RuleTree.stretchesAll .literal (l.flatMap (·.2))) := by
  induction hl with
  | nil o => exact .nil o
  | @cons o xs blanks ys _ l first blank _ ih =>
    have hfirst := (hbody first).append (.of_blank blank _)
    rw [List.append_nil] at hfirst
    rw [List.flatMap_cons, RuleTree.stretchesAll_append]
    exact hfirst.append ih

/-- **The scan passes the literals that a text is read by**, wherever the text stands. -/
theorem passes_of_spells : ∀ {α : Type} (g : Grammar α), g.namesLiterals = true →
    ∀ {o : ℕ} {cs : List Char} {x : α} {ts : List RuleTree}, Spells g.annotated o cs (x, ts) →
      Passes o cs (RuleTree.stretchesAll .literal ts)
  | _, .empty, _, o, _, _, _, hs => by
    obtain ⟨_, rfl, heq⟩ := hs
    obtain ⟨-, rfl⟩ := Prod.mk.inj heq
    exact .nil o
  | _, .mark m, h, o, _, _, _, hs => by
    obtain ⟨_, rfl, heq⟩ := hs
    obtain ⟨-, rfl⟩ := Prod.mk.inj heq
    exact .of_plain (List.forall_mem_singleton.2 (by simpa [namesLiterals] using h)) o
  | _, .script, _, o, _, _, _, hs => by
    obtain ⟨_, ⟨-, hcs, -⟩, heq⟩ := hs
    obtain ⟨-, rfl⟩ := Prod.mk.inj heq
    refine .of_plain (fun c hc => ?_) o
    rintro rfl
    exact Bool.false_ne_true (hcs _ hc)
  | _, .finish, _, o, _, _, _, hs => by
    obtain ⟨_, rfl, heq⟩ := hs
    obtain ⟨-, rfl⟩ := Prod.mk.inj heq
    exact .nil o
  | _, .seq first second, h, o, _, _, _, hs => by
    obtain ⟨hfirst, hsecond⟩ := Bool.and_eq_true_iff.1 h
    obtain ⟨⟨⟨x, ts⟩, y, us⟩, ⟨xs, blanks, ys, rfl, hblanks, hxs, hys⟩, heq⟩ := hs
    obtain ⟨-, rfl⟩ := Prod.mk.inj heq
    have hpassed := (passes_of_spells first hfirst hxs).append (.of_blank hblanks _)
    rw [List.append_nil] at hpassed
    rw [RuleTree.stretchesAll_append]
    exact hpassed.append (passes_of_spells second hsecond hys)
  | _, .either first second, h, o, _, _, _, hs => by
    obtain ⟨hfirst, hsecond⟩ := Bool.and_eq_true_iff.1 h
    rcases hs with hs | hs
    · exact passes_of_spells first hfirst hs
    · exact passes_of_spells second hsecond hs
  | _, .many body, h, o, _, _, _, hs => by
    obtain ⟨l, hl, heq⟩ := hs
    obtain ⟨-, rfl⟩ := Prod.mk.inj heq
    exact passes_of_rounds (fun hs => passes_of_spells body h hs) hl
  | _, .named rule body, h, o, _, _, _, hs => by
    obtain ⟨⟨_, x, inner⟩, ⟨rfl, hs⟩, heq⟩ := hs
    obtain ⟨-, rfl⟩ := Prod.mk.inj heq
    rw [RuleTree.stretchesAll_singleton]
    rw [namesLiterals] at h
    split at h
    -- Below the rule of a literal nothing else is named, so the stretch is the literal itself.
    · next hrule =>
      obtain ⟨rfl, hpassed⟩ := passes_of_isUnnamedLiteral h hs
      rw [if_pos hrule]
      exact hpassed
    · next hrule =>
      rw [if_neg hrule]
      exact passes_of_spells body h hs
  | _, .placed body, h, o, _, _, _, hs => by
    obtain ⟨⟨_, x, inner⟩, ⟨-, hs⟩, heq⟩ := hs
    obtain ⟨-, rfl⟩ := Prod.mk.inj heq
    exact passes_of_spells body h hs
  | _, .map _ body, h, o, _, _, _, hs => by
    obtain ⟨⟨x, inner⟩, hs, heq⟩ := hs
    obtain ⟨-, rfl⟩ := Prod.mk.inj heq
    exact passes_of_spells body h hs

end Grammar

end Metalanguage
