import Mathlib.Algebra.GroupWithZero.Nat
import Mathlib.Data.List.TakeDrop
import Mathlib.Data.List.TakeWhile
import Metalanguage.Grammar.Basic

/-!
# Proofs/Grammar/Spelling — what a grammar spells, and that only this is read

`Grammar.Spells` reads a grammar as an ordinary context-free one: alternatives without order, any
number of rounds, any run of blanks between the parts of a sequence and between rounds. What
`Grammar.read` takes off a text is spelled by the grammar, for the value that it returns
(`spells_of_read`), whatever the grammar.
-/

namespace Metalanguage

/-! ## Blanks -/

/-- Blanks only. -/
abbrev Blank (cs : List Char) : Prop := ∀ c ∈ cs, isBlank c = true

theorem blank_nil : Blank [] := List.forall_mem_nil _

/-- The first character that is no blank. -/
def lead (cs : List Char) : Option Char := cs.find? (!isBlank ·)

/-- The first character that is no blank is in the first of two texts, or in the second if the first
is blank. -/
theorem lead_append (cs ds : List Char) : lead (cs ++ ds) = (lead cs).or (lead ds) :=
  List.find?_append

theorem lead_blank {cs : List Char} (h : Blank cs) : lead cs = none :=
  List.find?_eq_none.2 fun c hc => by simp [h c hc]

/-- Blanks in front do not change what a text leads with. -/
theorem lead_blank_append {cs : List Char} (h : Blank cs) (ds : List Char) :
    lead (cs ++ ds) = lead ds := by
  rw [lead_append, lead_blank h, Option.none_or]

theorem lead_cons {c : Char} (h : isBlank c = false) (cs : List Char) :
    lead (c :: cs) = some c := by
  simp [lead, h]

theorem byteLength_eq_sum (cs : List Char) : byteLength cs = (cs.map Char.utf8Size).sum := by
  have hfold : ∀ (n : ℕ) (cs : List Char),
      cs.foldl (fun n c => n + c.utf8Size) n = n + (cs.map Char.utf8Size).sum := by
    intro n cs
    induction cs generalizing n with
    | nil => simp
    | cons c cs ih => rw [List.foldl_cons, ih, List.map_cons, List.sum_cons, Nat.add_assoc]
  rw [byteLength, hfold, Nat.zero_add]

@[simp] theorem byteLength_nil : byteLength [] = 0 := rfl

/-- Lengths in bytes add up, so that places do. -/
@[simp] theorem byteLength_append (cs ds : List Char) :
    byteLength (cs ++ ds) = byteLength cs + byteLength ds := by
  simp [byteLength_eq_sum]

@[simp] theorem byteLength_cons (c : Char) (cs : List Char) :
    byteLength (c :: cs) = c.utf8Size + byteLength cs := by
  simp [byteLength_eq_sum]

namespace Cursor

/-- Skipping passes over all blanks in front, and counts their bytes. -/
theorem skip_append {blanks : List Char} (h : Blank blanks) (o : ℕ) (cs : List Char) :
    skip o (blanks ++ cs) = skip (o + byteLength blanks) cs := by
  induction blanks generalizing o with
  | nil => rfl
  | cons b blanks ih =>
    obtain ⟨hb, hblanks⟩ := List.forall_mem_cons.1 h
    rw [List.cons_append, skip, if_pos hb, ih hblanks, byteLength_cons, Nat.add_assoc]

theorem skipBlanks_append {blanks : List Char} (h : Blank blanks) (o : ℕ) (cs : List Char) :
    skipBlanks ⟨o, blanks ++ cs⟩ = skipBlanks ⟨o + byteLength blanks, cs⟩ := skip_append h o cs

/-- Where no blank stands nothing is skipped. -/
theorem skipBlanks_cons {c : Char} (h : isBlank c = false) (o : ℕ) (cs : List Char) :
    skipBlanks ⟨o, c :: cs⟩ = ⟨o, c :: cs⟩ := by
  rw [skipBlanks, skip, if_neg (by simp [h])]

/-- Blanks are passed over, and what is behind them does not start with one. -/
theorem exists_skipBlanks (c : Cursor) : ∃ blanks, Blank blanks ∧
    c.rest = blanks ++ c.skipBlanks.rest ∧ c.skipBlanks.offset = c.offset + byteLength blanks ∧
      ∀ d ∈ c.skipBlanks.rest.head?, isBlank d = false := by
  obtain ⟨o, cs⟩ := c
  induction cs generalizing o with
  | nil => exact ⟨[], blank_nil, rfl, rfl, by simp [skipBlanks, skip]⟩
  | cons c cs ih =>
    by_cases hc : isBlank c = true
    · obtain ⟨blanks, hblanks, hrest, hoffset, hhead⟩ := ih (o + c.utf8Size)
      have hskip : skipBlanks ⟨o, c :: cs⟩ = skipBlanks ⟨o + c.utf8Size, cs⟩ := by
        rw [skipBlanks, skip, if_pos hc]; rfl
      rw [hskip]
      exact ⟨c :: blanks, List.forall_mem_cons.2 ⟨hc, hblanks⟩, congrArg (c :: ·) hrest,
        by rw [hoffset, byteLength_cons, Nat.add_assoc], hhead⟩
    · rw [skipBlanks_cons (by simpa using hc)]
      exact ⟨[], blank_nil, rfl, rfl, by simpa using hc⟩

/-- **To skip twice is to skip once**, which is why blanks may be skipped on either side of a part.
-/
@[simp] theorem skipBlanks_skipBlanks (c : Cursor) : c.skipBlanks.skipBlanks = c.skipBlanks := by
  obtain ⟨-, -, -, -, hhead⟩ := exists_skipBlanks c
  generalize c.skipBlanks = d at hhead
  obtain ⟨o, _ | ⟨a, cs⟩⟩ := d
  · rfl
  · exact skipBlanks_cons (hhead a rfl) o cs

theorem lead_skipBlanks (c : Cursor) : lead c.skipBlanks.rest = lead c.rest := by
  obtain ⟨blanks, hblanks, hrest, -⟩ := exists_skipBlanks c
  rw [hrest, lead_blank_append hblanks]

/-- `d` is behind `cs`, which stands at `c`. -/
structure Passes (c : Cursor) (cs : List Char) (d : Cursor) : Prop where
  rest : c.rest = cs ++ d.rest
  offset : d.offset = c.offset + byteLength cs

/-- To pass over one text and then another is to pass over both. -/
theorem Passes.trans {c d e : Cursor} {cs ds : List Char} (h : c.Passes cs d)
    (h' : d.Passes ds e) : c.Passes (cs ++ ds) e :=
  ⟨by rw [h.rest, h'.rest, List.append_assoc],
    by rw [h'.offset, h.offset, byteLength_append, Nat.add_assoc]⟩

theorem Passes.nil (c : Cursor) : c.Passes [] c := ⟨rfl, rfl⟩

/-- Skipped blanks are passed over. -/
theorem exists_passes_skipBlanks (c : Cursor) :
    ∃ blanks, Blank blanks ∧ c.Passes blanks c.skipBlanks := by
  obtain ⟨blanks, hblanks, hrest, hoffset, -⟩ := exists_skipBlanks c
  exact ⟨blanks, hblanks, hrest, hoffset⟩

end Cursor

/-! ## Literals -/

/-- What may stand between the angle brackets of a literal: escaped characters, and other characters
than a backslash and the closing bracket. -/
inductive LiteralBody : List Char → Prop
  | nil : LiteralBody []
  | escaped (c : Char) {cs : List Char} (h : LiteralBody cs) : LiteralBody ('\\' :: c :: cs)
  | plain {c : Char} {cs : List Char} (backslash : c ≠ '\\') (closing : c ≠ '>')
    (h : LiteralBody cs) : LiteralBody (c :: cs)

namespace Literal

/-- What is scanned as a body is one, up to where the text breaks off. -/
theorem literalBody_of_scanBody : ∀ {cs body rest : List Char},
    scanBody cs = (body, '>' :: rest) → cs = body ++ '>' :: rest ∧ LiteralBody body
  | [], body, rest, h => by simp [scanBody] at h
  | [c], body, rest, h => by
    by_cases hc : c = '>'
    · subst hc
      obtain ⟨rfl, rfl⟩ : body = [] ∧ rest = [] := by simpa [scanBody, eq_comm] using h
      exact ⟨rfl, .nil⟩
    · simp [scanBody, hc] at h
  | c :: d :: cs, body, rest, h => by
    by_cases hc : c = '>'
    · subst hc
      obtain ⟨rfl, rfl⟩ : body = [] ∧ rest = d :: cs := by simpa [scanBody, eq_comm] using h
      exact ⟨rfl, .nil⟩
    · by_cases hb : c = '\\'
      · subst hb
        simp only [scanBody, show ('\\' == '>') = false from rfl, beq_self_eq_true, if_true,
          Bool.false_eq_true, if_false, Prod.mk.injEq] at h
        obtain ⟨rfl, hafter⟩ := h
        obtain ⟨hcs, hbody⟩ := literalBody_of_scanBody (Prod.ext rfl hafter)
        exact ⟨congrArg ('\\' :: d :: ·) hcs, .escaped d hbody⟩
      · simp only [scanBody, beq_iff_eq, hc, hb, if_false, Prod.mk.injEq] at h
        obtain ⟨rfl, hafter⟩ := h
        obtain ⟨hcs, hbody⟩ := literalBody_of_scanBody (Prod.ext rfl hafter)
        exact ⟨congrArg (c :: ·) hcs, .plain hb hc hbody⟩

/-- **A body is scanned up to the bracket that closes it**, whatever follows. -/
theorem scanBody_append {body : List Char} (h : LiteralBody body) (rest : List Char) :
    scanBody (body ++ '>' :: rest) = (body, '>' :: rest) := by
  induction h with
  | nil => cases rest <;> rfl
  | escaped c _ ih => simp [scanBody, ih]
  | @plain c cs hb hc _ ih =>
    cases hcs : cs ++ '>' :: rest with
    | nil => simp at hcs
    | cons d ds =>
      rw [hcs] at ih
      simp [hcs, scanBody, hb, hc, ih]

/-- What is scanned as a literal is a body between angle brackets. -/
theorem literalBody_of_scan? {cs rest : List Char} {l : Literal}
    (h : scan? cs = some (l, rest)) :
    ∃ body, LiteralBody body ∧ cs = '<' :: (body ++ '>' :: rest) ∧ l = ⟨String.ofList body⟩ := by
  cases cs with
  | nil => cases h
  | cons a cs =>
    by_cases ha : a = '<'
    · subst ha
      rw [scan?] at h
      split at h
      · next body rest' hbody =>
        cases h
        obtain ⟨rfl, hlit⟩ := literalBody_of_scanBody hbody
        exact ⟨body, hlit, rfl, rfl⟩
      · cases h
    · simp [scan?, ha] at h

/-- **A literal is scanned up to its own end**, whatever follows. -/
theorem scan?_append {body : List Char} (h : LiteralBody body) (rest : List Char) :
    scan? ('<' :: (body ++ '>' :: rest)) = some (⟨String.ofList body⟩, rest) := by
  simp only [scan?, scanBody_append h rest]

/-- An escaped text is the body of a literal: no bracket in it is bare. -/
theorem literalBody_escape : ∀ cs : List Char, LiteralBody (escape cs)
  | [] => .nil
  | c :: cs => by
    rw [escape]
    split
    · exact .escaped c (literalBody_escape cs)
    · next h =>
      refine .plain ?_ ?_ (literalBody_escape cs)
      · rintro rfl; exact h rfl
      · rintro rfl; exact h rfl

end Literal

namespace Cursor

variable {c d : Cursor}

/-- A mark is the character that is passed over ... -/
theorem passes_of_mark? {m : Char} {u : Unit} (h : c.mark? m = some (u, d)) :
    c.Passes [m] d := by
  obtain ⟨o, cs⟩ := c
  cases cs with
  | nil => cases h
  | cons a cs =>
    rw [mark?] at h
    split at h
    · next ha =>
      cases h
      obtain rfl : a = m := by simpa using ha
      exact ⟨rfl, by simp⟩
    · cases h

/-- ... a script some script characters, one at least ... -/
theorem passes_of_script? {s : String} (h : c.script? = some (s, d)) :
    ∃ cs, c.Passes cs d ∧ cs ≠ [] ∧ (∀ a ∈ cs, Script.isScriptChar a = true) ∧
      s = String.ofList cs := by
  rw [script?, List.span_eq_takeWhile_dropWhile] at h
  split at h
  · cases h
  · next run rest hne hspan =>
    cases h
    obtain ⟨rfl, rfl⟩ := Prod.mk.inj hspan
    refine ⟨_, ⟨List.takeWhile_append_dropWhile.symm, rfl⟩, ?_, ?_, rfl⟩
    · simpa using hne
    · exact fun a ha => List.mem_takeWhile_imp ha

/-- ... a literal its body with its brackets ... -/
theorem passes_of_literal? {l : Literal} (h : c.literal? = some (l, d)) :
    ∃ body, LiteralBody body ∧ c.Passes ('<' :: (body ++ ['>'])) d ∧
      l = ⟨String.ofList body⟩ := by
  obtain ⟨⟨l', rest⟩, hscan, hd⟩ := Option.map_eq_some_iff.1 h
  cases hd
  obtain ⟨body, hbody, hcs, rfl⟩ := Literal.literalBody_of_scan? hscan
  refine ⟨body, hbody, ⟨?_, ?_⟩, rfl⟩
  · simpa using hcs
  · simp [Literal.display]

/-- ... and the end is no character at all. -/
theorem passes_of_finish? {u : Unit} (h : c.finish? = some (u, d)) : c.Passes [] d := by
  obtain ⟨o, cs⟩ := c
  cases cs with
  | nil => cases h; exact .nil _
  | cons a cs => cases h

end Cursor

/-! ## Spelling -/

namespace Grammar

/-- Rounds of a repetition, with any blanks behind each. -/
inductive Rounds {α : Type} (P : ℕ → List Char → α → Prop) : ℕ → List Char → List α → Prop
  | nil (o : ℕ) : Rounds P o [] []
  | cons {o : ℕ} {xs blanks ys : List Char} {x : α} {l : List α} (first : P o xs x)
    (blank : Blank blanks) (more : Rounds P (o + byteLength (xs ++ blanks)) ys l) :
    Rounds P o (xs ++ blanks ++ ys) (x :: l)

/-- **What a grammar spells** at a place of a text, and for which value. -/
def Spells : {α : Type} → Grammar α → ℕ → List Char → α → Prop
  | _, .empty, _, cs, _ => cs = []
  | _, .mark m, _, cs, _ => cs = [m]
  | _, .script, _, cs, s =>
    cs ≠ [] ∧ (∀ c ∈ cs, Script.isScriptChar c = true) ∧ s = String.ofList cs
  | _, .literal, _, cs, l =>
    ∃ body, LiteralBody body ∧ cs = '<' :: (body ++ ['>']) ∧ l = ⟨String.ofList body⟩
  | _, .finish, _, cs, _ => cs = []
  | _, .seq first second, o, cs, (x, y) =>
    ∃ xs blanks ys, cs = xs ++ blanks ++ ys ∧ Blank blanks ∧ Spells first o xs x ∧
      Spells second (o + byteLength (xs ++ blanks)) ys y
  | _, .either first second, o, cs, x => Spells first o cs x ∨ Spells second o cs x
  | _, .many body, o, cs, l => Rounds (Spells body) o cs l
  | _, .named _ body, o, cs, x => Spells body o cs x
  | _, .placed body, o, cs, (range, x) => range = ⟨o, o + byteLength cs⟩ ∧ Spells body o cs x
  | _, .map f body, o, cs, y => ∃ x, Spells body o cs x ∧ f x = y

variable {α : Type}

/-- Rounds for values are rounds for renamed values. -/
theorem Rounds.map {β : Type} {P : ℕ → List Char → α → Prop} {Q : ℕ → List Char → β → Prop}
    {f : α → β} (h : ∀ {o cs x}, P o cs x → Q o cs (f x)) {o : ℕ} {cs : List Char} {l : List α}
    (hl : Rounds P o cs l) : Rounds Q o cs (l.map f) := by
  induction hl with
  | nil o => exact .nil o
  | cons first blank _ ih => exact .cons (h first) blank ih

/-- Rounds may stand elsewhere if each may. -/
theorem Rounds.exists_at {P : ℕ → List Char → α → Prop}
    (h : ∀ {o cs x}, P o cs x → ∀ o', ∃ x', P o' cs x') {o : ℕ} {cs : List Char} {l : List α}
    (hl : Rounds P o cs l) (o' : ℕ) : ∃ l', Rounds P o' cs l' := by
  induction hl generalizing o' with
  | nil => exact ⟨[], .nil o'⟩
  | @cons _ xs blanks _ _ _ first blank _ ih =>
    obtain ⟨x', hx'⟩ := h first o'
    obtain ⟨l', hl'⟩ := ih (o' + byteLength (xs ++ blanks))
    exact ⟨x' :: l', .cons hx' blank hl'⟩

/-- **The place does not matter** for what is spelled, but for the value. -/
theorem exists_spells_at : ∀ {α : Type} (g : Grammar α) {o : ℕ} {cs : List Char} {x : α},
    Spells g o cs x → ∀ o', ∃ x', Spells g o' cs x'
  | _, .empty, _, _, x, h, _ => ⟨x, h⟩
  | _, .mark _, _, _, x, h, _ => ⟨x, h⟩
  | _, .script, _, _, x, h, _ => ⟨x, h⟩
  | _, .literal, _, _, x, h, _ => ⟨x, h⟩
  | _, .finish, _, _, x, h, _ => ⟨x, h⟩
  | _, .seq first second, _, _, (_, _), h, o' => by
    obtain ⟨xs, blanks, ys, hcs, hblanks, hxs, hys⟩ := h
    obtain ⟨x', hx'⟩ := exists_spells_at first hxs o'
    obtain ⟨y', hy'⟩ := exists_spells_at second hys (o' + byteLength (xs ++ blanks))
    exact ⟨(x', y'), xs, blanks, ys, hcs, hblanks, hx', hy'⟩
  | _, .either first second, _, _, _, h, o' => by
    rcases h with h | h
    · exact (exists_spells_at first h o').imp fun _ => .inl
    · exact (exists_spells_at second h o').imp fun _ => .inr
  | _, .many body, _, _, _, h, o' =>
    Rounds.exists_at (P := Spells body) (fun hx => exists_spells_at body hx) h o'
  | _, .named _ body, _, _, _, h, o' => exists_spells_at body h o'
  | _, .placed body, _, _, (_, _), h, o' => by
    obtain ⟨x', hx'⟩ := exists_spells_at body h.2 o'
    exact ⟨(_, x'), rfl, hx'⟩
  | _, .map f body, _, _, _, h, o' => by
    obtain ⟨x, hx, -⟩ := h
    obtain ⟨x', hx'⟩ := exists_spells_at body hx o'
    exact ⟨f x', x', hx', rfl⟩

/-! ## Reading, by the form of the grammar -/

section Read

variable (c : Cursor)

theorem read_empty : read .empty c = some ((), c) := rfl

theorem read_mark (m : Char) : read (.mark m) c = c.mark? m := rfl

theorem read_script : read .script c = c.script? := rfl

theorem read_literal : read .literal c = c.literal? := rfl

theorem read_finish : read .finish c = c.finish? := rfl

/-- In a row, blanks are skipped before the second text, whether it then fits or not. -/
theorem read_seq (first : Grammar α) (second : Grammar β) :
    read (.seq first second) c = (read first c).bind fun (x, d) =>
      (read second d.skipBlanks).map fun (y, e) => ((x, y), e) := by
  rw [read]
  cases read first c with
  | none => rfl
  | some result =>
    obtain ⟨x, d⟩ := result
    cases h : read second d.skipBlanks <;> simp [h]

/-- The second alternative is read where the first does not fit, from the same place. -/
theorem read_either (first second : Grammar α) :
    read (.either first second) c = (read first c).or (read second c) := by
  rw [read]
  cases read first c <;> rfl

theorem read_many (body : Grammar α) : read (.many body) c = some (repeated (read body) c) := rfl

theorem read_named (rule : Rule) (g : Grammar α) : read (.named rule g) c = read g c := rfl

theorem read_placed (g : Grammar α) :
    read (.placed g) c = (read g c).map fun (x, d) => ((⟨c.offset, d.offset⟩, x), d) := by
  rw [read]
  cases read g c <;> rfl

theorem read_map (f : α → β) (g : Grammar α) :
    read (.map f g) c = (read g c).map fun (x, d) => (f x, d) := by
  rw [read]
  cases read g c <;> rfl

end Read

/-! ## Soundness -/

/-- A round that does not fit leaves the blanks before it unread, so there are blanks only between
rounds. The induction is on the tries that are left. -/
theorem rounds_of_rounds {body : Grammar α}
    (hbody : ∀ {c : Cursor} {x : α} {d : Cursor}, read body c = some (x, d) →
      ∃ cs, c.Passes cs d ∧ Spells body c.offset cs x) :
    ∀ (bound : List Char) {c : Cursor} {l : List α} {e : Cursor},
      rounds (read body) bound c = (l, e) → ∃ blanks ys, Blank blanks ∧ c.Passes (blanks ++ ys) e ∧
        Rounds (Spells body) (c.offset + byteLength blanks) ys l
  | [], c, l, e, h => by
    cases h
    exact ⟨[], [], blank_nil, .nil c, .nil _⟩
  | _ :: bound, c, l, e, h => by
    obtain ⟨blanks, hblanks, hskip⟩ := c.exists_passes_skipBlanks
    rw [rounds] at h
    cases hread : read body c.skipBlanks with
    | none =>
      rw [hread] at h
      cases h
      exact ⟨[], [], blank_nil, .nil c, .nil _⟩
    | some result =>
      obtain ⟨x, d⟩ := result
      rw [hread] at h
      cases h
      obtain ⟨xs, hpass, hxs⟩ := hbody hread
      obtain ⟨blanks', ys, hblanks', hmore, hys⟩ :=
        rounds_of_rounds hbody bound (c := d) rfl
      refine ⟨blanks, xs ++ blanks' ++ ys, hblanks, ?_, ?_⟩
      · simpa only [List.append_assoc] using hskip.trans (hpass.trans hmore)
      · rw [hskip.offset] at hxs
        refine .cons hxs hblanks' ?_
        rw [hpass.offset, hskip.offset] at hys
        simpa only [byteLength_append, Nat.add_assoc] using hys

/-- **A repetition spells its rounds**: no bound on the tries shows. -/
theorem spells_repeated {body : Grammar α}
    (hbody : ∀ {c : Cursor} {x : α} {d : Cursor}, read body c = some (x, d) →
      ∃ cs, c.Passes cs d ∧ Spells body c.offset cs x) {c : Cursor} {l : List α} {e : Cursor}
    (h : repeated (read body) c = (l, e)) :
    ∃ cs, c.Passes cs e ∧ Rounds (Spells body) c.offset cs l := by
  rw [repeated] at h
  cases hread : read body c with
  | none =>
    rw [hread] at h
    cases h
    exact ⟨[], .nil c, .nil _⟩
  | some result =>
    obtain ⟨x, d⟩ := result
    rw [hread] at h
    cases h
    obtain ⟨xs, hpass, hxs⟩ := hbody hread
    obtain ⟨blanks, ys, hblanks, hmore, hys⟩ := rounds_of_rounds hbody c.rest (c := d) rfl
    refine ⟨xs ++ blanks ++ ys, ?_, .cons hxs hblanks ?_⟩
    · simpa only [List.append_assoc] using hpass.trans hmore
    · rw [hpass.offset] at hys
      simpa only [byteLength_append, Nat.add_assoc] using hys

/-- **What is read is spelled**: a grammar reads a piece of the text that it spells, for the value
that it returns. -/
theorem spells_of_read : ∀ {α : Type} (g : Grammar α) {c : Cursor} {x : α} {d : Cursor},
    read g c = some (x, d) → ∃ cs, c.Passes cs d ∧ Spells g c.offset cs x
  | _, .empty, c, x, d, h => by
    cases h
    exact ⟨[], .nil c, rfl⟩
  | _, .mark m, c, x, d, h => ⟨[m], Cursor.passes_of_mark? h, rfl⟩
  | _, .script, c, x, d, h => Cursor.passes_of_script? h
  | _, .literal, c, x, d, h => by
    obtain ⟨body, hbody, hpass, rfl⟩ := Cursor.passes_of_literal? h
    exact ⟨_, hpass, body, hbody, rfl, rfl⟩
  | _, .finish, c, x, d, h => ⟨[], Cursor.passes_of_finish? h, rfl⟩
  | _, .seq first second, c, (x, y), e, h => by
    rw [read_seq, Option.bind_eq_some_iff] at h
    obtain ⟨⟨x', d⟩, hfirst, h⟩ := h
    obtain ⟨⟨y', e'⟩, hsecond, h⟩ := Option.map_eq_some_iff.1 h
    cases h
    obtain ⟨xs, hpass, hxs⟩ := spells_of_read first hfirst
    obtain ⟨blanks, hblanks, hskip⟩ := d.exists_passes_skipBlanks
    obtain ⟨ys, hmore, hys⟩ := spells_of_read second hsecond
    refine ⟨xs ++ blanks ++ ys, ?_, xs, blanks, ys, rfl, hblanks, hxs, ?_⟩
    · simpa only [List.append_assoc] using hpass.trans (hskip.trans hmore)
    · rw [hskip.offset, hpass.offset] at hys
      simpa only [byteLength_append, Nat.add_assoc] using hys
  | _, .either first second, c, x, d, h => by
    rw [read_either, Option.or_eq_some_iff] at h
    rcases h with hfirst | ⟨-, hsecond⟩
    · obtain ⟨cs, hpass, hcs⟩ := spells_of_read first hfirst
      exact ⟨cs, hpass, .inl hcs⟩
    · obtain ⟨cs, hpass, hcs⟩ := spells_of_read second hsecond
      exact ⟨cs, hpass, .inr hcs⟩
  | _, .many body, c, l, e, h => by
    rw [read_many, Option.some.injEq] at h
    exact spells_repeated (spells_of_read body) h
  | _, .named _ body, c, x, d, h => spells_of_read body h
  | _, .placed body, c, (range, x), d, h => by
    rw [read_placed, Option.map_eq_some_iff] at h
    obtain ⟨⟨x', d'⟩, hbody, h⟩ := h
    cases h
    obtain ⟨cs, hpass, hcs⟩ := spells_of_read body hbody
    exact ⟨cs, hpass, by rw [hpass.offset], hcs⟩
  | _, .map f body, c, y, d, h => by
    rw [read_map, Option.map_eq_some_iff] at h
    obtain ⟨⟨x, d'⟩, hbody, h⟩ := h
    cases h
    obtain ⟨cs, hpass, hcs⟩ := spells_of_read body hbody
    exact ⟨cs, hpass, x, hcs, rfl⟩

end Grammar

end Metalanguage
