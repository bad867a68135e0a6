import Metalanguage.Proofs.Grammar.Spelling

/-!
# Proofs/Grammar/Derivation — derivations, and the texts that they generate

`Grammar.Derivation g` is the type of the derivation trees of a grammar, computed from the grammar:
a pair for a sequence, a sum for a choice, a list for a repetition. Choices carry no order and
repetitions no greed, so this is the grammar read as an ordinary context-free one, and a derivation
is data: two of them can be told apart.

A derivation has a list of tokens, and generates the texts that hold these with any blanks around
them (`Spaced`). `Grammar.Stands` says which value it gives at a place of a text, and the two fit:
`exists_stands` finds the value in any text that has the tokens, and `spells_iff_exists_stands` says
that a grammar spells what its derivations give.
-/

namespace Metalanguage

/-! ## Literals -/

/-- A piece of the body of a literal: a backslash with any character, or another character than a
backslash and the closing bracket. -/
inductive LiteralPiece
  | escaped (c : Char)
  | plain (c : Char) (backslash : c ≠ '\\') (closing : c ≠ '>')

namespace LiteralPiece

/-- A piece as written. -/
def text : LiteralPiece → List Char
  | escaped c => ['\\', c]
  | plain c _ _ => [c]

/-- The body that pieces make up. -/
def body (pieces : List LiteralPiece) : List Char := pieces.flatMap text

theorem body_cons (p : LiteralPiece) (pieces : List LiteralPiece) :
    body (p :: pieces) = p.text ++ body pieces := List.flatMap_cons

/-- Pieces in a row are the body of a literal ... -/
theorem literalBody_body : ∀ pieces, LiteralBody (body pieces)
  | [] => .nil
  | escaped c :: pieces => .escaped c (literalBody_body pieces)
  | plain _ hb hc :: pieces => .plain hb hc (literalBody_body pieces)

/-- ... and a body is some pieces in a row. -/
theorem exists_body_eq {cs : List Char} (h : LiteralBody cs) : ∃ pieces, body pieces = cs := by
  induction h with
  | nil => exact ⟨[], rfl⟩
  | escaped c _ ih =>
    obtain ⟨pieces, rfl⟩ := ih
    exact ⟨escaped c :: pieces, rfl⟩
  | plain hb hc _ ih =>
    obtain ⟨pieces, rfl⟩ := ih
    exact ⟨plain _ hb hc :: pieces, rfl⟩

/-- A piece ends where it does, whatever follows. -/
theorem text_append_inj {p q : LiteralPiece} {cs ds : List Char}
    (h : p.text ++ cs = q.text ++ ds) : p = q ∧ cs = ds := by
  cases p with
  | escaped c =>
    cases q with
    | escaped d => simpa [text] using h
    | plain d hb hc => exact absurd (List.cons.inj h).1.symm hb
  | plain c hb hc =>
    cases q with
    | escaped d => exact absurd (List.cons.inj h).1 hb
    | plain d hb' hc' => simpa [text] using h

/-- **A body falls into pieces in one way.** -/
theorem body_injective : Function.Injective body := by
  intro ps
  induction ps with
  | nil => rintro (_ | ⟨_ | _, qs⟩) h <;> first | rfl | cases h
  | cons p ps ih =>
    rintro (_ | ⟨q, qs⟩) h
    · cases p <;> cases h
    · rw [body_cons, body_cons] at h
      obtain ⟨rfl, hbody⟩ := text_append_inj h
      rw [ih hbody]

end LiteralPiece

/-! ## Tokens in a text -/

/-- **A text that holds the tokens**, in this order and with any blanks around each. -/
inductive Spaced : List (List Char) → List Char → Prop
  | nil {blanks : List Char} (blank : Blank blanks) : Spaced [] blanks
  | cons {blanks cs : List Char} {tokens : List (List Char)} (blank : Blank blanks)
    (token : List Char) (more : Spaced tokens cs) : Spaced (token :: tokens) (blanks ++ token ++ cs)

namespace Spaced

/-- A token stands in the text that it is. -/
theorem singleton (token : List Char) : Spaced [token] token := by
  simpa using cons blank_nil token (nil blank_nil)

/-- Blanks in front of a text hold no token. -/
theorem blank_append {blanks cs : List Char} {tokens : List (List Char)} (h : Spaced tokens cs)
    (hblanks : Blank blanks) : Spaced tokens (blanks ++ cs) := by
  cases h with
  | nil hcs => exact nil (List.forall_mem_append.2 ⟨hblanks, hcs⟩)
  | cons hcs token more =>
    simpa only [List.append_assoc] using cons (List.forall_mem_append.2 ⟨hblanks, hcs⟩) token more

/-- Texts that hold tokens can be joined: their blanks meet where they do. -/
theorem append {cs ds : List Char} {tokens more : List (List Char)} (h : Spaced tokens cs)
    (h' : Spaced more ds) : Spaced (tokens ++ more) (cs ++ ds) := by
  induction h with
  | nil hblanks => exact h'.blank_append hblanks
  | cons hblanks token _ ih =>
    simpa only [List.append_assoc, List.cons_append] using cons hblanks token ih

/-- Tokens without blanks are a text of them. -/
theorem flatten (tokens : List (List Char)) : Spaced tokens tokens.flatten := by
  induction tokens with
  | nil => exact nil blank_nil
  | cons token tokens ih => simpa using cons blank_nil token ih

/-- **A text can be cut where its tokens are**: the blanks in between go to the one side. -/
theorem exists_of_append {tokens more : List (List Char)} {cs : List Char}
    (h : Spaced (tokens ++ more) cs) :
    ∃ xs ys, cs = xs ++ ys ∧ Spaced tokens xs ∧ Spaced more ys := by
  induction tokens generalizing cs with
  | nil => exact ⟨[], cs, rfl, nil blank_nil, h⟩
  | cons token tokens ih =>
    cases h with
    | @cons blanks ds _ hblanks _ hmore =>
      obtain ⟨xs, ys, rfl, hxs, hys⟩ := ih hmore
      exact ⟨blanks ++ token ++ xs, ys, by simp, cons hblanks token hxs, hys⟩

/-- One token has blanks on its two sides. -/
theorem singleton_iff {token cs : List Char} : Spaced [token] cs ↔
    ∃ blanks blanks', cs = blanks ++ (token ++ blanks') ∧ Blank blanks ∧ Blank blanks' := by
  constructor
  · rintro (_ | ⟨hblanks, -, hblanks'⟩)
    obtain ⟨hblanks'⟩ := hblanks'
    exact ⟨_, _, List.append_assoc .., hblanks, hblanks'⟩
  · rintro ⟨blanks, blanks', rfl, hblanks, hblanks'⟩
    rw [← List.append_assoc]
    exact cons hblanks token (nil hblanks')

end Spaced

namespace Grammar

/-! ## Derivations -/

/-- **The derivations of a grammar.** -/
def Derivation : {α : Type} → Grammar α → Type
  | _, .empty => Unit
  | _, .mark _ => Unit
  | _, .script => {run : List Char // run ≠ [] ∧ ∀ c ∈ run, Script.isScriptChar c = true}
  | _, .literal => List LiteralPiece
  | _, .finish => Unit
  | _, .seq first second => Derivation first × Derivation second
  | _, .either first second => Derivation first ⊕ Derivation second
  | _, .many body => List (Derivation body)
  | _, .named _ body => Derivation body
  | _, .placed body => Derivation body
  | _, .map _ body => Derivation body

/-- The tokens of a derivation: marks, scripts and literals. -/
def tokens : {α : Type} → (g : Grammar α) → g.Derivation → List (List Char)
  | _, .empty, _ => []
  | _, .mark m, _ => [[m]]
  | _, .script, run => [run.1]
  | _, .literal, pieces => ['<' :: (LiteralPiece.body pieces ++ ['>'])]
  | _, .finish, _ => []
  | _, .seq first second, t => tokens first t.1 ++ tokens second t.2
  | _, .either first second, t => Sum.elim (tokens first) (tokens second) t
  | _, .many body, ts => List.flatMap (tokens body) ts
  | _, .named _ body, t => tokens body t
  | _, .placed body, t => tokens body t
  | _, .map _ body, t => tokens body t

/-- **What a derivation gives** at a place of a text: the piece of the text, and the value. -/
def Stands : {α : Type} → (g : Grammar α) → g.Derivation → ℕ → List Char → α → Prop
  | _, .empty, _, _, cs, _ => cs = []
  | _, .mark m, _, _, cs, _ => cs = [m]
  | _, .script, run, _, cs, s => cs = run.1 ∧ s = String.ofList run.1
  | _, .literal, pieces, _, cs, l =>
    cs = '<' :: (LiteralPiece.body pieces ++ ['>']) ∧ l = ⟨String.ofList (LiteralPiece.body pieces)⟩
  | _, .finish, _, _, cs, _ => cs = []
  | _, .seq first second, t, o, cs, (x, y) =>
    ∃ xs blanks ys, cs = xs ++ blanks ++ ys ∧ Blank blanks ∧ Stands first t.1 o xs x ∧
      Stands second t.2 (o + byteLength (xs ++ blanks)) ys y
  | _, .either first second, t, o, cs, x =>
    Sum.elim (Stands first · o cs x) (Stands second · o cs x) t
  | _, .many body, ts, o, cs, l =>
    ∃ rs, Rounds (fun o cs (r : body.Derivation × _) => Stands body r.1 o cs r.2) o cs rs ∧
      rs.map (·.1) = ts ∧ rs.map (·.2) = l
  | _, .named _ body, t, o, cs, x => Stands body t o cs x
  | _, .placed body, t, o, cs, (range, x) =>
    range = ⟨o, o + byteLength cs⟩ ∧ Stands body t o cs x
  | _, .map f body, t, o, cs, y => ∃ x, Stands body t o cs x ∧ f x = y

variable {α β : Type}

/-- What a derivation gives is spelled: the tree is forgotten. -/
theorem Stands.spells : ∀ {α : Type} (g : Grammar α) {t : g.Derivation} {o : ℕ} {cs : List Char}
    {x : α}, g.Stands t o cs x → Spells g o cs x
  | _, .empty, _, _, _, _, h => h
  | _, .mark _, _, _, _, _, h => h
  | _, .script, run, _, _, _, ⟨hcs, hs⟩ => hcs ▸ ⟨run.2.1, run.2.2, hs⟩
  | _, .literal, pieces, _, _, _, ⟨hcs, hl⟩ =>
    ⟨_, LiteralPiece.literalBody_body pieces, hcs, hl⟩
  | _, .finish, _, _, _, _, h => h
  | _, .seq first second, _, _, _, (_, _), h => by
    obtain ⟨xs, blanks, ys, hcs, hblanks, hxs, hys⟩ := h
    exact ⟨xs, blanks, ys, hcs, hblanks, spells first hxs, spells second hys⟩
  | _, .either first second, t, _, _, _, h => by
    cases t with
    | inl t => exact .inl (spells first h)
    | inr t => exact .inr (spells second h)
  | _, .many body, _, _, _, _, h => by
    obtain ⟨rs, hrs, -, rfl⟩ := h
    exact hrs.map fun hr => spells body hr
  | _, .named _ body, _, _, _, _, h => spells body h
  | _, .placed body, _, _, _, (_, _), h => ⟨h.1, spells body h.2⟩
  | _, .map _ body, _, _, _, _, h => by
    obtain ⟨x, hx, hf⟩ := h
    exact ⟨x, spells body hx, hf⟩

/-- The rounds of a repetition are given a derivation each. -/
theorem exists_rounds {P : ℕ → List Char → α → Prop}
    {Q : ℕ → List Char → β × α → Prop} (h : ∀ {o cs x}, P o cs x → ∃ t, Q o cs (t, x)) {o : ℕ}
    {cs : List Char} {l : List α} (hl : Rounds P o cs l) :
    ∃ rs, Rounds Q o cs rs ∧ rs.map (·.2) = l := by
  induction hl with
  | nil o => exact ⟨[], .nil o, rfl⟩
  | cons first blank _ ih =>
    obtain ⟨t, ht⟩ := h first
    obtain ⟨rs, hrs, rfl⟩ := ih
    exact ⟨(t, _) :: rs, .cons ht blank hrs, rfl⟩

/-- What is spelled has a derivation. -/
theorem exists_stands_of_spells : ∀ {α : Type} (g : Grammar α) {o : ℕ} {cs : List Char} {x : α},
    Spells g o cs x → ∃ t, g.Stands t o cs x
  | _, .empty, _, _, _, h => ⟨(), h⟩
  | _, .mark _, _, _, _, h => ⟨(), h⟩
  | _, .script, _, cs, _, ⟨hne, hcs, hs⟩ => ⟨⟨cs, hne, hcs⟩, rfl, hs⟩
  | _, .literal, _, _, _, h => by
    obtain ⟨body, hbody, hcs, hl⟩ := h
    obtain ⟨pieces, rfl⟩ := LiteralPiece.exists_body_eq hbody
    exact ⟨pieces, hcs, hl⟩
  | _, .finish, _, _, _, h => ⟨(), h⟩
  | _, .seq first second, _, _, (_, _), h => by
    obtain ⟨xs, blanks, ys, hcs, hblanks, hxs, hys⟩ := h
    obtain ⟨t, ht⟩ := exists_stands_of_spells first hxs
    obtain ⟨u, hu⟩ := exists_stands_of_spells second hys
    exact ⟨(t, u), xs, blanks, ys, hcs, hblanks, ht, hu⟩
  | _, .either first second, _, _, _, h => by
    rcases h with h | h
    · obtain ⟨t, ht⟩ := exists_stands_of_spells first h
      exact ⟨Sum.inl t, ht⟩
    · obtain ⟨t, ht⟩ := exists_stands_of_spells second h
      exact ⟨Sum.inr t, ht⟩
  | _, .many body, _, _, _, h => by
    obtain ⟨rs, hrs, hl⟩ := exists_rounds (P := Spells body)
      (Q := fun o cs r => body.Stands r.1 o cs r.2) (fun hx => exists_stands_of_spells body hx) h
    exact ⟨_, rs, hrs, rfl, hl⟩
  | _, .named _ body, _, _, _, h => exists_stands_of_spells body h
  | _, .placed body, _, _, (_, _), h => by
    obtain ⟨t, ht⟩ := exists_stands_of_spells body h.2
    exact ⟨t, h.1, ht⟩
  | _, .map _ body, _, _, _, h => by
    obtain ⟨x, hx, hf⟩ := h
    obtain ⟨t, ht⟩ := exists_stands_of_spells body hx
    exact ⟨t, x, ht, hf⟩

/-- **A grammar spells what its derivations give.** -/
theorem spells_iff_exists_stands {g : Grammar α} {o : ℕ} {cs : List Char} {x : α} :
    Spells g o cs x ↔ ∃ t, g.Stands t o cs x :=
  ⟨exists_stands_of_spells g, fun ⟨_, h⟩ => h.spells⟩

/-! ## The tokens in the text -/

/-- Round by round, the tokens follow each other with the blanks between the rounds. -/
theorem Spaced.of_rounds {P : ℕ → List Char → β → Prop} {tokens : β → List (List Char)}
    (h : ∀ {o cs r}, P o cs r → Spaced (tokens r) cs) {o : ℕ} {cs : List Char} {rs : List β}
    (hrs : Rounds P o cs rs) : Spaced (rs.flatMap tokens) cs := by
  induction hrs with
  | nil => exact .nil blank_nil
  | cons first blank _ ih =>
    rw [List.append_assoc, List.flatMap_cons]
    exact (h first).append (ih.blank_append blank)

/-- **A derivation stands where its tokens do.** -/
theorem Stands.spaced : ∀ {α : Type} (g : Grammar α) {t : g.Derivation} {o : ℕ} {cs : List Char}
    {x : α}, g.Stands t o cs x → Spaced (g.tokens t) cs
  | _, .empty, _, _, _, _, h => h ▸ .nil blank_nil
  | _, .mark _, _, _, _, _, h => h ▸ .singleton _
  | _, .script, _, _, _, _, h => h.1 ▸ .singleton _
  | _, .literal, _, _, _, _, h => h.1 ▸ .singleton _
  | _, .finish, _, _, _, _, h => h ▸ .nil blank_nil
  | _, .seq first second, _, _, _, (_, _), h => by
    obtain ⟨xs, blanks, ys, rfl, hblanks, hxs, hys⟩ := h
    rw [List.append_assoc]
    exact (spaced first hxs).append ((spaced second hys).blank_append hblanks)
  | _, .either first second, t, _, _, _, h => by
    cases t with
    | inl t => exact spaced first h
    | inr t => exact spaced second h
  | _, .many body, _, _, _, _, h => by
    obtain ⟨rs, hrs, rfl, -⟩ := h
    have hspaced := Spaced.of_rounds (fun hr => spaced body hr) hrs
    rwa [← List.flatMap_map] at hspaced
  | _, .named _ body, _, _, _, _, h => spaced body h
  | _, .placed body, _, _, _, (_, _), h => spaced body h.2
  | _, .map _ body, _, _, _, _, h => by
    obtain ⟨_, hx, -⟩ := h
    exact spaced body hx

/-- A text that holds, between blanks, what a derivation stands for at any place. -/
def Holds (g : Grammar α) (t : g.Derivation) (cs : List Char) : Prop :=
  ∃ blanks xs blanks', cs = blanks ++ (xs ++ blanks') ∧ Blank blanks ∧ Blank blanks' ∧
    ∀ o, ∃ x, g.Stands t o xs x

/-- A derivation without tokens has its value in blanks alone. -/
theorem holds_of_blank {g : Grammar α} {t : g.Derivation} {x : α} (h : ∀ o, g.Stands t o [] x)
    {cs : List Char} (hcs : Spaced [] cs) : g.Holds t cs := by
  obtain ⟨hblank⟩ := hcs
  exact ⟨cs, [], [], by simp, hblank, blank_nil, fun o => ⟨x, h o⟩⟩

/-- One with a single token has its value where that stands. -/
theorem holds_of_token {g : Grammar α} {t : g.Derivation} {token : List Char} {x : α}
    (h : ∀ o, g.Stands t o token x) {cs : List Char} (hcs : Spaced [token] cs) : g.Holds t cs := by
  obtain ⟨blanks, blanks', rfl, hblanks, hblanks'⟩ := Spaced.singleton_iff.1 hcs
  exact ⟨blanks, token, blanks', rfl, hblanks, hblanks', fun o => ⟨x, h o⟩⟩

/-- In a row, the value of the second text is at the place where the first one ends, wherever this
is. -/
theorem Holds.seq {first : Grammar α} {second : Grammar β} {t : first.Derivation}
    {u : second.Derivation} {cs ds : List Char} (h : first.Holds t cs) (h' : second.Holds u ds) :
    (seq first second).Holds (t, u) (cs ++ ds) := by
  obtain ⟨b₁, xs, b₂, rfl, hb₁, hb₂, hxs⟩ := h
  obtain ⟨b₃, ys, b₄, rfl, hb₃, hb₄, hys⟩ := h'
  refine ⟨b₁, xs ++ (b₂ ++ b₃) ++ ys, b₄, by simp, hb₁, hb₄, fun o => ?_⟩
  obtain ⟨x, hx⟩ := hxs o
  obtain ⟨y, hy⟩ := hys (o + byteLength (xs ++ (b₂ ++ b₃)))
  exact ⟨(x, y), xs, b₂ ++ b₃, ys, rfl, List.forall_mem_append.2 ⟨hb₂, hb₃⟩, hx, hy⟩

/-- The same for each round, from the first to the last. -/
theorem Holds.many {body : Grammar α} {ts : List body.Derivation}
    (h : ∀ t ∈ ts, ∀ {cs}, Spaced (body.tokens t) cs → body.Holds t cs) {cs : List Char}
    (hcs : Spaced (ts.flatMap body.tokens) cs) : (many body).Holds ts cs := by
  induction ts generalizing cs with
  | nil => exact holds_of_blank (g := .many body) (t := []) (fun o => ⟨[], .nil o, rfl, rfl⟩) hcs
  | cons t ts ih =>
    rw [List.flatMap_cons] at hcs
    obtain ⟨cs, ds, rfl, hcs, hds⟩ := hcs.exists_of_append
    obtain ⟨b₁, xs, b₂, rfl, hb₁, hb₂, hxs⟩ := h t List.mem_cons_self hcs
    obtain ⟨b₃, ys, b₄, rfl, hb₃, hb₄, hys⟩ := ih (fun u hu => h u (List.mem_cons_of_mem _ hu)) hds
    refine ⟨b₁, xs ++ (b₂ ++ b₃) ++ ys, b₄, by simp, hb₁, hb₄, fun o => ?_⟩
    obtain ⟨x, hx⟩ := hxs o
    obtain ⟨l, rs, hrs, rfl, rfl⟩ := hys (o + byteLength (xs ++ (b₂ ++ b₃)))
    exact ⟨_, (t, x) :: rs, .cons hx (List.forall_mem_append.2 ⟨hb₂, hb₃⟩) hrs, rfl, rfl⟩

/-- **Where its tokens stand, a derivation does**, whatever the blanks around them. -/
theorem holds_of_spaced : ∀ {α : Type} (g : Grammar α) {t : g.Derivation} {cs : List Char},
    Spaced (g.tokens t) cs → g.Holds t cs
  | _, .empty, t, _, h => holds_of_blank (g := .empty) (t := t) (x := ()) (fun _ => rfl) h
  | _, .mark m, t, _, h => holds_of_token (g := .mark m) (t := t) (x := ()) (fun _ => rfl) h
  | _, .script, t, _, h => holds_of_token (g := .script) (t := t) (fun _ => ⟨rfl, rfl⟩) h
  | _, .literal, t, _, h => holds_of_token (g := .literal) (t := t) (fun _ => ⟨rfl, rfl⟩) h
  | _, .finish, t, _, h => holds_of_blank (g := .finish) (t := t) (x := ()) (fun _ => rfl) h
  | _, .seq first second, _, _, h => by
    obtain ⟨xs, ys, rfl, hxs, hys⟩ := h.exists_of_append
    exact (holds_of_spaced first hxs).seq (holds_of_spaced second hys)
  | _, .either first second, t, _, h => by
    cases t with
    | inl t => exact holds_of_spaced first h
    | inr t => exact holds_of_spaced second h
  | _, .many body, _, _, h => .many (fun _ _ _ hcs => holds_of_spaced body hcs) h
  | _, .named _ body, _, _, h => holds_of_spaced body h
  | _, .placed body, _, _, h => by
    obtain ⟨blanks, xs, blanks', hcs, hblanks, hblanks', hxs⟩ := holds_of_spaced body h
    refine ⟨blanks, xs, blanks', hcs, hblanks, hblanks', fun o => ?_⟩
    obtain ⟨x, hx⟩ := hxs o
    exact ⟨(_, x), rfl, hx⟩
  | _, .map f body, _, _, h => by
    obtain ⟨blanks, xs, blanks', hcs, hblanks, hblanks', hxs⟩ := holds_of_spaced body h
    refine ⟨blanks, xs, blanks', hcs, hblanks, hblanks', fun o => ?_⟩
    obtain ⟨x, hx⟩ := hxs o
    exact ⟨f x, x, hx, rfl⟩

/-! ## The values of a derivation -/

/-- The value of a derivation, at some place of some text: only the places in it are open. -/
def Gives (g : Grammar α) (t : g.Derivation) (x : α) : Prop := ∃ o cs, g.Stands t o cs x

theorem Stands.gives {g : Grammar α} {t : g.Derivation} {o : ℕ} {cs : List Char} {x : α}
    (h : g.Stands t o cs x) : g.Gives t x := ⟨o, cs, h⟩

theorem Gives.exists_spells {g : Grammar α} {t : g.Derivation} {x : α} (h : g.Gives t x) :
    ∃ o cs, Spells g o cs x := by
  obtain ⟨o, cs, h⟩ := h
  exact ⟨o, cs, h.spells⟩

/-- A script is its token ... -/
theorem Gives.script {t : Grammar.script.Derivation} {s : String} (h : Grammar.script.Gives t s) :
    s = String.ofList t.1 := by
  obtain ⟨-, -, -, h⟩ := h
  exact h

/-- ... and a literal its pieces, still escaped. -/
theorem Gives.literal {t : Grammar.literal.Derivation} {l : Literal}
    (h : Grammar.literal.Gives t l) : l = ⟨String.ofList (LiteralPiece.body t)⟩ := by
  obtain ⟨-, -, -, h⟩ := h
  exact h

/-- **The values of a pair are pairs of values.** -/
theorem Gives.seq {first : Grammar α} {second : Grammar β}
    {t : (Grammar.seq first second).Derivation} {x : α × β}
    (h : (Grammar.seq first second).Gives t x) :
    first.Gives t.1 x.1 ∧ second.Gives t.2 x.2 := by
  obtain ⟨o, _, xs, blanks, ys, -, -, hxs, hys⟩ := h
  exact ⟨hxs.gives, hys.gives⟩

/-- A derivation of a choice tells the alternative. -/
theorem Gives.either {first second : Grammar α} {t : (Grammar.either first second).Derivation}
    {x : α} (h : (Grammar.either first second).Gives t x) :
    (∃ u, t = Sum.inl u ∧ first.Gives u x) ∨ ∃ u, t = Sum.inr u ∧ second.Gives u x := by
  cases t with
  | inl u => exact .inl ⟨u, rfl, h⟩
  | inr u => exact .inr ⟨u, rfl, h⟩

/-- **The values of a list are lists of values**, of the same length. -/
theorem Gives.many {body : Grammar α} {ts : (Grammar.many body).Derivation} {l : List α}
    (h : (Grammar.many body).Gives ts l) : List.Forall₂ body.Gives ts l := by
  obtain ⟨o, cs, rs, hrs, rfl, rfl⟩ := h
  induction hrs with
  | nil => exact .nil
  | cons first _ _ ih => exact .cons first.gives ih

/-- Each value in a list is given by one of its rounds. -/
theorem Gives.exists_of_mem {body : Grammar α} {ts : (Grammar.many body).Derivation} {l : List α}
    (h : (Grammar.many body).Gives ts l) {x : α} (hx : x ∈ l) : ∃ t, body.Gives t x := by
  have hall : List.Forall₂ body.Gives ts l := h.many
  clear h
  induction hall with
  | nil => cases hx
  | cons first _ ih =>
    rcases List.mem_cons.1 hx with rfl | hx
    · exact ⟨_, first⟩
    · exact ih hx

theorem Gives.named {body : Grammar α} {rule : Rule} {t : body.Derivation} {x : α}
    (h : (Grammar.named rule body).Gives t x) : body.Gives t x := h

/-- Where it is read may differ for one derivation, so the place is no part of what is known of the
value. -/
theorem Gives.placed {body : Grammar α} {t : body.Derivation} {x : ByteRange × α}
    (h : (Grammar.placed body).Gives t x) : body.Gives t x.2 := by
  obtain ⟨o, cs, -, h⟩ := h
  exact h.gives

/-- A renamed value comes of one before. -/
theorem Gives.map {body : Grammar α} {f : α → β} {t : body.Derivation} {y : β}
    (h : (Grammar.map f body).Gives t y) : ∃ x, body.Gives t x ∧ f x = y := by
  obtain ⟨o, cs, x, hx, hf⟩ := h
  exact ⟨x, hx.gives, hf⟩

theorem Gives.seqRight {first : Grammar α} {second : Grammar β}
    {t : (Grammar.seqRight first second).Derivation} {y : β}
    (h : (Grammar.seqRight first second).Gives t y) : second.Gives t.2 y := by
  obtain ⟨x, hx, rfl⟩ := h.map
  exact hx.seq.2

theorem Gives.seqLeft {first : Grammar α} {second : Grammar β}
    {t : (Grammar.seqLeft first second).Derivation} {x : α}
    (h : (Grammar.seqLeft first second).Gives t x) : first.Gives t.1 x := by
  obtain ⟨x, hx, rfl⟩ := h.map
  exact hx.seq.1

theorem Gives.between {opening closing : Char} {body : Grammar α}
    {t : (Grammar.between opening closing body).Derivation} {x : α}
    (h : (Grammar.between opening closing body).Gives t x) : body.Gives t.2.1 x :=
  h.seqRight.seqLeft

end Grammar

end Metalanguage
