import Metalanguage.Bracket
import Metalanguage.Proofs.Grammar.Change
import Metalanguage.Proofs.Grammar.Reading

/-!
# Proofs/Grammar/Bare — texts without their literals

The bare text of a text has neither literals nor blanks; the scanner that counts brackets finds it
(`bareText`). Where a grammar has literals in lists only, the bare text of what a derivation
generates is what the derivation without these lists generates (`spaced_bareText`): the tokens that
are left are those that open no literal.
-/

namespace Metalanguage

/-! ## Bare texts -/

/-- Whether a character shows in a bare text: no blank, nor what opens a literal. -/
def isBare (c : Char) : Bool := c != '<' && !isBlank c

/-- **A text without its literals and blanks.** -/
def bareText (cs : List Char) : List Char := (Bracket.outsideLiterals cs).filter isBare

namespace Bracket

/-- Outside literals all is kept ... -/
theorem foldl_scanStep_plain {cs : List Char} (h : ∀ c ∈ cs, c ≠ '<') (kept : List Char) :
    cs.foldl scanStep (.outside, kept) = (.outside, cs.reverse ++ kept) := by
  induction cs generalizing kept with
  | nil => rfl
  | cons c cs ih =>
    obtain ⟨hc, hcs⟩ := List.forall_mem_cons.1 h
    have hstep : scanStep (.outside, kept) c = (.outside, c :: kept) := by
      simp [scanStep, Zone.next, hc]
    rw [List.foldl_cons, hstep, ih hcs, List.reverse_cons, List.append_assoc, List.singleton_append]

/-- ... and inside one nothing is, up to the bracket that closes it. -/
theorem foldl_scanStep_body (pieces : List LiteralPiece) (kept : List Char) :
    (LiteralPiece.body pieces).foldl scanStep (.inside, kept) = (.inside, kept) := by
  induction pieces with
  | nil => rfl
  | cons piece pieces ih =>
    have hpiece : piece.text.foldl scanStep (.inside, kept) = (.inside, kept) := by
      cases piece with
      | escaped c => simp [LiteralPiece.text, scanStep, Zone.next]
      | plain c hb hc => simp [LiteralPiece.text, scanStep, Zone.next, hb, hc]
    rw [LiteralPiece.body_cons, List.foldl_append, hpiece, ih]

/-- A literal leaves the character that opens it. -/
theorem foldl_scanStep_literal (pieces : List LiteralPiece) (kept : List Char) :
    ('<' :: (LiteralPiece.body pieces ++ ['>'])).foldl scanStep (.outside, kept) =
      (.outside, '<' :: kept) := by
  have hopening : scanStep (.outside, kept) '<' = (.inside, '<' :: kept) := rfl
  rw [List.foldl_cons, hopening, List.foldl_append, foldl_scanStep_body]
  rfl

end Bracket

/-! ## Tokens -/

/-- A literal, or characters that show in a bare text. -/
inductive IsToken : List Char → Prop
  | literal (pieces : List LiteralPiece) : IsToken ('<' :: (LiteralPiece.body pieces ++ ['>']))
  | bare {cs : List Char} (h : ∀ c ∈ cs, isBare c = true) : IsToken cs

/-- Whether a token is no literal. -/
def isKept (token : List Char) : Bool := token.head? != some '<'

/-- A token without an opening bracket of a literal is kept. -/
theorem isKept_of_bare {token : List Char} (h : ∀ c ∈ token, isBare c = true) :
    isKept token = true := by
  cases token with
  | nil => rfl
  | cons c token =>
    have hc := h c List.mem_cons_self
    simp only [isBare, Bool.and_eq_true] at hc
    simpa [isKept] using hc.1

theorem filter_isKept_singleton {token : List Char} (h : ∀ c ∈ token, isBare c = true) :
    [token].filter isKept = [token] :=
  List.filter_eq_self.2 (List.forall_mem_singleton.2 (isKept_of_bare h))

/-- Script characters are bare. -/
theorem isBare_of_isScriptChar {c : Char} (h : Script.isScriptChar c = true) :
    isBare c = true := by
  have hopening : c ≠ '<' := by
    rintro rfl
    cases h
  simp [isBare, hopening, Grammar.isScriptChar_not_blank h]

/-- Blanks leave nothing. -/
theorem filter_isBare_blank {blanks : List Char} (h : Blank blanks) :
    blanks.filter isBare = [] :=
  List.filter_eq_nil_iff.2 fun c hc => by simp [isBare, h c hc]

theorem ne_opening_of_blank {blanks : List Char} (h : Blank blanks) : ∀ c ∈ blanks, c ≠ '<' := by
  rintro _ hc rfl
  exact Bool.false_ne_true (h _ hc)

/-- Behind a text the scanner has kept its tokens but the literals. -/
theorem exists_foldl_scanStep {tokens : List (List Char)} {cs : List Char}
    (h : Spaced tokens cs) (htokens : ∀ token ∈ tokens, IsToken token) (kept : List Char) :
    ∃ kept', cs.foldl Bracket.scanStep (.outside, kept) = (.outside, kept') ∧
      kept'.reverse.filter isBare =
        kept.reverse.filter isBare ++ (tokens.filter isKept).flatten := by
  induction h generalizing kept with
  | nil hblank =>
    refine ⟨_, Bracket.foldl_scanStep_plain (ne_opening_of_blank hblank) kept, ?_⟩
    simp [filter_isBare_blank hblank]
  | @cons blanks cs tokens hblank token _ ih =>
    obtain ⟨htoken, hrest⟩ := List.forall_mem_cons.1 htokens
    rw [List.foldl_append, List.foldl_append,
      Bracket.foldl_scanStep_plain (ne_opening_of_blank hblank)]
    cases htoken with
    | literal pieces =>
      rw [Bracket.foldl_scanStep_literal]
      obtain ⟨kept', hkept', hfilter⟩ := ih hrest ('<' :: (blanks.reverse ++ kept))
      refine ⟨kept', hkept', hfilter.trans ?_⟩
      simp [filter_isBare_blank hblank, isBare, isKept]
    | bare hbare =>
      have hplain : ∀ c ∈ token, c ≠ '<' := by
        rintro _ hc rfl
        exact absurd (hbare _ hc) (by decide)
      rw [Bracket.foldl_scanStep_plain hplain]
      obtain ⟨kept', hkept', hfilter⟩ := ih hrest (token.reverse ++ (blanks.reverse ++ kept))
      refine ⟨kept', hkept', hfilter.trans ?_⟩
      rw [List.filter_cons_of_pos (isKept_of_bare hbare), List.flatten_cons]
      simp [filter_isBare_blank hblank, List.filter_eq_self.2 hbare]

/-- **The bare text of a text** is that of its tokens. -/
theorem bareText_eq {tokens : List (List Char)} {cs : List Char} (h : Spaced tokens cs)
    (htokens : ∀ token ∈ tokens, IsToken token) :
    bareText cs = (tokens.filter isKept).flatten := by
  obtain ⟨kept, hkept, hfilter⟩ := exists_foldl_scanStep h htokens []
  rw [bareText, Bracket.outsideLiterals, hkept]
  simpa using hfilter

/-! ## Grammars with literals in lists only -/

namespace Grammar

/-- Whether literals stand in lists only, and no mark is taken for a literal or a blank. -/
def hasLiteralLists : {α : Type} → Grammar α → Bool
  | _, .empty => true
  | _, .mark c => isBare c
  | _, .script => true
  | _, .literal => false
  | _, .finish => true
  | _, .seq first second => hasLiteralLists first && hasLiteralLists second
  | _, .either first second => hasLiteralLists first && hasLiteralLists second
  | _, .many body => body.isLiteral || hasLiteralLists body
  | _, .named _ body => hasLiteralLists body
  | _, .placed body => hasLiteralLists body
  | _, .map _ body => hasLiteralLists body

/-- The grammar of a literal has one token, with both brackets. -/
theorem tokens_of_isLiteral : ∀ {α : Type} (g : Grammar α), g.isLiteral = true →
    ∀ t : g.Derivation, ∃ pieces, g.tokens t = ['<' :: (LiteralPiece.body pieces ++ ['>'])]
  | _, .literal, _, pieces => ⟨pieces, rfl⟩
  | _, .named _ body, h, t => tokens_of_isLiteral body h t

/-- The tokens of a list of literals are literals. -/
theorem exists_of_mem_tokens {α : Type} {body : Grammar α} (h : body.isLiteral = true)
    (ts : List body.Derivation) {token : List Char} (htoken : token ∈ (many body).tokens ts) :
    ∃ pieces, token = '<' :: (LiteralPiece.body pieces ++ ['>']) := by
  obtain ⟨t, -, htoken⟩ := List.mem_flatMap.1 htoken
  obtain ⟨pieces, hpieces⟩ := tokens_of_isLiteral body h t
  rw [hpieces] at htoken
  exact ⟨pieces, List.mem_singleton.1 htoken⟩

/-- To drop tokens in each round is to drop them in all. -/
theorem flatMap_map_eq_filter {β : Type} {f : β → β} {tokens : β → List (List Char)}
    (h : ∀ t, tokens (f t) = (tokens t).filter isKept) (ts : List β) :
    (ts.map f).flatMap tokens = (ts.flatMap tokens).filter isKept := by
  rw [List.flatMap_map, List.filter_flatMap]
  exact List.flatMap_congr fun t _ => h t

/-- **The tokens without those of literals** are those of the derivation without literals. -/
theorem tokens_bare : ∀ {α : Type} (g : Grammar α), g.hasLiteralLists = true →
    ∀ t : g.Derivation, (∀ token ∈ g.tokens t, IsToken token) ∧
      g.tokens (g.bare .literals t) = (g.tokens t).filter isKept
  | _, .empty, _, _ => ⟨nofun, rfl⟩
  | _, .mark m, h, _ => by
    have hbare : ∀ c ∈ [m], isBare c = true := List.forall_mem_singleton.2 h
    exact ⟨List.forall_mem_singleton.2 (.bare hbare), (filter_isKept_singleton hbare).symm⟩
  | _, .script, _, run => by
    have hbare : ∀ c ∈ run.1, isBare c = true := fun c hc => isBare_of_isScriptChar (run.2.2 c hc)
    exact ⟨List.forall_mem_singleton.2 (.bare hbare), (filter_isKept_singleton hbare).symm⟩
  | _, .finish, _, _ => ⟨nofun, rfl⟩
  | _, .seq first second, h, t => by
    obtain ⟨hfirst, hsecond⟩ := Bool.and_eq_true_iff.1 h
    obtain ⟨hmem, heq⟩ := tokens_bare first hfirst t.1
    obtain ⟨hmem', heq'⟩ := tokens_bare second hsecond t.2
    refine ⟨List.forall_mem_append.2 ⟨hmem, hmem'⟩, ?_⟩
    exact (congrArg₂ (· ++ ·) heq heq').trans (List.filter_append ..).symm
  | _, .either first second, h, t => by
    obtain ⟨hfirst, hsecond⟩ := Bool.and_eq_true_iff.1 h
    cases t with
    | inl t => exact tokens_bare first hfirst t
    | inr t => exact tokens_bare second hsecond t
  | _, .many body, h, ts => by
    -- A list of literals is dropped as a whole. Of any other list each entry loses its literals.
    cases hbody : body.isLiteral with
    | true =>
      have hbare : (many body).bare .literals ts = [] := if_pos ⟨rfl, hbody⟩
      refine ⟨fun token htoken => ?_, ?_⟩
      · obtain ⟨pieces, rfl⟩ := exists_of_mem_tokens hbody ts htoken
        exact .literal pieces
      · rw [hbare]
        refine (List.filter_eq_nil_iff.2 fun token htoken => ?_).symm
        obtain ⟨pieces, rfl⟩ := exists_of_mem_tokens hbody ts htoken
        simp [isKept]
    | false =>
      have hlists : body.hasLiteralLists = true := by
        simpa [hasLiteralLists, hbody] using h
      have hbare : (many body).bare .literals ts = List.map (body.bare .literals) ts :=
        Change.bare_many hbody ts
      refine ⟨fun token htoken => ?_, ?_⟩
      · obtain ⟨t, -, htoken⟩ := List.mem_flatMap.1 htoken
        exact (tokens_bare body hlists t).1 token htoken
      · rw [hbare]
        exact flatMap_map_eq_filter (fun t => (tokens_bare body hlists t).2) ts
  | _, .named _ body, h, t => tokens_bare body h t
  | _, .placed body, h, t => tokens_bare body h t
  | _, .map _ body, h, t => tokens_bare body h t

/-- **The bare text of what a derivation generates** is generated by the derivation without its
literals. -/
theorem spaced_bareText {α : Type} {g : Grammar α} (hg : g.hasLiteralLists = true)
    {t : g.Derivation} {cs : List Char} (h : Spaced (g.tokens t) cs) :
    Spaced (g.tokens (g.bare .literals t)) (bareText cs) := by
  obtain ⟨htokens, hbare⟩ := tokens_bare g hg t
  rw [hbare, bareText_eq h htokens]
  exact .flatten _

end Grammar

end Metalanguage
