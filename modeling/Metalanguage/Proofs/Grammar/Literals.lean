import Metalanguage.Bracket
import Metalanguage.Grammar.Form
import Metalanguage.Proofs.Grammar.Productions

/-!
# Proofs/Grammar/Literals — the literals that stand in a text

Any text has literals (`Literal.foundIn`): the first `<` opens one, which reaches to the first `>`
that no backslash takes along, and behind it the search goes on. In what a grammar spells, these are
the literals of the value, in the order of the text (`Grammar.Tells`, with one lemma for each way to
combine grammars), because `<` opens a literal wherever it stands in a production.
-/

namespace Metalanguage

/-! ## The literals of a text -/

namespace Literal

open Metalanguage.Bracket

/-- The literals that are found from a zone on, where `body` is what the open literal holds so far,
last first. A literal that is never closed is none. -/
def foundFrom : Zone → List Char → List Char → List Literal
  | _, _, [] => []
  | .outside, _, c :: cs => foundFrom (Zone.outside.next c) [] cs
  | .inside, body, c :: cs =>
    if c = '>' then ⟨String.ofList body.reverse⟩ :: foundFrom .outside [] cs
    else foundFrom (Zone.inside.next c) (c :: body) cs
  | .escaped, body, c :: cs => foundFrom .inside (c :: body) cs

/-- **The literals of a text**, whatever text it is. -/
def foundIn (text : String) : List Literal := foundFrom .outside [] text.toList

/-- What follows a body is searched behind the bracket that closes it. -/
theorem foundFrom_body {body : List Char} (h : LiteralBody body) (sofar after : List Char) :
    foundFrom .inside sofar (body ++ '>' :: after) =
      ⟨String.ofList (sofar.reverse ++ body)⟩ :: foundFrom .outside [] after := by
  induction h generalizing sofar with
  | nil => simp [foundFrom]
  | @escaped c cs _ ih =>
    have hstep : foundFrom .inside sofar ('\\' :: c :: (cs ++ '>' :: after)) =
        foundFrom .inside (c :: '\\' :: sofar) (cs ++ '>' :: after) := rfl
    rw [List.cons_append, List.cons_append, hstep, ih]
    simp
  | @plain c cs hb hc _ ih =>
    have hnext : Zone.inside.next c = .inside := by simp [Zone.next, hb, hc]
    rw [List.cons_append, foundFrom, if_neg hc, hnext, ih]
    simp

/-- **A piece of text shows these literals**, whatever follows. -/
def Shows (cs : List Char) (ls : List Literal) : Prop :=
  ∀ after, foundFrom .outside [] (cs ++ after) = ls ++ foundFrom .outside [] after

namespace Shows

variable {cs ds : List Char} {ls ms : List Literal}

/-- Texts that show their literals show those of both in a row. -/
theorem append (h : Shows cs ls) (h' : Shows ds ms) : Shows (cs ++ ds) (ls ++ ms) := fun after => by
  rw [List.append_assoc, h, h', List.append_assoc]

/-- What a text shows is found in it alone. -/
theorem foundFrom_eq (h : Shows cs ls) : foundFrom .outside [] cs = ls := by
  simpa [foundFrom] using h []

/-- Text without the opening bracket shows none. -/
theorem of_plain (h : ∀ c ∈ cs, c ≠ '<') : Shows cs [] := by
  intro after
  induction cs with
  | nil => rfl
  | cons c cs ih =>
    obtain ⟨hc, hcs⟩ := List.forall_mem_cons.1 h
    have hnext : Zone.outside.next c = .outside := by simp [Zone.next, hc]
    rw [List.cons_append, foundFrom, hnext, ih hcs]

/-- Blanks have none. -/
theorem of_blank (h : Blank cs) : Shows cs [] := of_plain fun c hc => by
  rintro rfl
  exact Bool.false_ne_true (h _ hc)

/-- **A literal shows itself**, brackets and all. -/
theorem of_body (h : LiteralBody cs) : Shows ('<' :: (cs ++ ['>'])) [⟨String.ofList cs⟩] := by
  intro after
  have hopen : foundFrom .outside [] ('<' :: (cs ++ '>' :: after)) =
      foundFrom .inside [] (cs ++ '>' :: after) := rfl
  rw [List.cons_append, List.append_assoc, List.singleton_append, hopen, foundFrom_body h]
  rfl

end Shows

end Literal

/-! ## The literals of a form -/

section Nodes

variable {F : Type} (node : F → List Literal)

/-- The literals of the nodes of a clause. -/
def ClauseForm.allLiterals (f : ClauseForm F) : List Literal :=
  node f.substance ++ (node f.attr ++ node f.mode)

/-- The literals of the clauses of a sentence, then its own. -/
def SentenceForm.allLiterals (f : SentenceForm F) : List Literal :=
  f.clauses.flatMap (ClauseForm.allLiterals node) ++ f.literals

end Nodes

/-- **The literals of a proposition as written**, at any depth, in the order of the text. -/
def PropositionForm.allLiterals : PropositionForm → List Literal
  | word f => f.literals
  | sentence f => f.allLiterals WordForm.literals
  | superSentence f => f.allLiterals (SentenceForm.allLiterals WordForm.literals)

namespace Grammar

/-! ## What a grammar tells -/

variable {α β : Type}

/-- **The literals of a value** are those that its text shows. -/
def Tells (g : Grammar α) (literals : α → List Literal) : Prop :=
  ∀ ⦃o : ℕ⦄ ⦃cs : List Char⦄ ⦃x : α⦄, Spells g o cs x → Literal.Shows cs (literals x)

section Parts

variable {g : Grammar α} {g' : Grammar β} {literals : α → List Literal}
  {literals' : β → List Literal}

theorem tells_empty : Tells .empty fun _ => [] := by
  rintro o _ x rfl
  exact .of_plain nofun

/-- A mark is no opening bracket of a literal ... -/
theorem tells_mark {m : Char} (hm : m ≠ '<') : Tells (.mark m) fun _ => [] := by
  rintro o _ x rfl
  exact .of_plain (List.forall_mem_singleton.2 hm)

/-- ... and nor is any script character. -/
theorem tells_script : Tells .script fun _ => [] := by
  rintro o cs x ⟨-, hcs, -⟩
  refine .of_plain fun c hc => ?_
  rintro rfl
  exact Bool.false_ne_true (hcs _ hc)

/-- The one grammar that has a literal tells that. -/
theorem tells_literal : Tells .literal fun l => [l] := by
  rintro o _ _ ⟨body, hbody, rfl, rfl⟩
  exact .of_body hbody

/-- A renamed value has the literals of the value before. -/
theorem Tells.map (h : Tells g literals) (φ : α → β) (hliterals : ∀ x, literals' (φ x) = literals x) :
    Tells (.map φ g) literals' := by
  rintro o cs _ ⟨x, hs, rfl⟩
  rw [hliterals]
  exact h hs

theorem Tells.named (h : Tells g literals) (rule : Rule) : Tells (.named rule g) literals :=
  fun _ _ _ hs => h hs

theorem Tells.placed (h : Tells g literals) : Tells (.placed g) fun p => literals p.2 :=
  fun _ _ _ hs => h hs.2

/-- Either alternative may have been spelled. -/
theorem Tells.either {second : Grammar α} (h : Tells g literals) (h' : Tells second literals) :
    Tells (.either g second) literals
  | _, _, _, .inl hs => h hs
  | _, _, _, .inr hs => h' hs

/-- **In a row**: literals are found in the order of the text. -/
theorem Tells.seq (h : Tells g literals) (h' : Tells g' literals') :
    Tells (.seq g g') fun p => literals p.1 ++ literals' p.2 := by
  rintro o _ ⟨x, y⟩ ⟨xs, blanks, ys, rfl, hblanks, hxs, hys⟩
  have hfirst : Literal.Shows (xs ++ blanks) (literals x) := by
    simpa using (h hxs).append (.of_blank hblanks)
  exact hfirst.append (h' hys)

/-- **One after the other**: so are those of the rounds. -/
theorem Tells.many (h : Tells g literals) : Tells (.many g) (·.flatMap literals) := by
  intro o cs l hl
  induction hl with
  | nil => exact .of_plain nofun
  | @cons _ xs blanks _ x _ first blank _ ih =>
    have hfirst : Literal.Shows (xs ++ blanks) (literals x) := by
      simpa using (h first).append (.of_blank blank)
    exact hfirst.append ih

theorem Tells.markRight (h : Tells g literals) {m : Char} (hm : m ≠ '<') :
    Tells (seqRight (.mark m) g) literals :=
  ((tells_mark hm).seq h).map Prod.snd fun _ => rfl

/-- Marks around a text add none. -/
theorem Tells.between (h : Tells g literals) {opening closing : Char} (ho : opening ≠ '<')
    (hc : closing ≠ '<') : Tells (.between opening closing g) literals :=
  Tells.markRight ((h.seq (tells_mark hc)).map Prod.fst fun _ => (List.append_nil _).symm) ho

/-- Marks between entries add none either. -/
theorem Tells.separated (h : Tells g literals) {separator : Char} (hs : separator ≠ '<') :
    Tells (Grammar.separated separator g) (·.flatMap literals) :=
  (h.seq (h.markRight hs).many).map _ fun _ => rfl

/-- What shows no literals, or nothing at all. -/
theorem Tells.optional_nothing (h : Tells g fun _ => []) : Tells (Grammar.optional g) fun _ => [] :=
  .either (h.map _ fun _ => rfl) (tells_empty.map _ fun _ => rfl)

/-- Rounds of what shows no literals show none. -/
theorem Tells.separated_nothing (h : Tells g fun _ => []) {separator : Char} (hs : separator ≠ '<') :
    Tells (Grammar.separated separator g) fun _ => [] := by
  intro o cs l hl
  have hnone : l.flatMap (fun _ => ([] : List Literal)) = [] := by simp
  exact hnone ▸ h.separated hs hl

end Parts

end Grammar

namespace Productions

open Grammar

/-! ## Words -/

theorem tells_term : Tells term fun _ => [] :=
  (((tells_script.named _).between (by decide) (by decide)).named _).placed.map _ fun _ => rfl

/-- Nothing below a word has literals. -/
theorem tells_morpheme : Tells morpheme fun _ => [] :=
  (((tells_term.separated_nothing (by decide)).between (by decide) (by decide)).map _
    fun _ => rfl).named _

/-- The literals of a list are its entries. -/
theorem tells_literals : Tells (.many literal) fun ls => ls := by
  intro o cs ls hs
  simpa using (tells_literal.named Rule.literal).many hs

/-- A word has its literals at its end. -/
theorem tells_word : Tells word WordForm.literals := by
  have hmode := (tells_morpheme.markRight (m := '*') (by decide)).optional_nothing
  have hbody := (tells_morpheme.seq hmode).between (show '[' ≠ '<' by decide)
    (show ']' ≠ '<' by decide)
  refine .named (.map (hbody.seq tells_literals) _ fun _ => ?_) _
  rfl

/-! ## Clauses and sentences -/

section Nodes

variable {F : Type} {node : Grammar F} {literals : F → List Literal}

/-- The nodes of a clause tell theirs in order. -/
theorem tells_clauseOver (h : Tells node literals) (rule : Rule) :
    Tells (clauseOver rule node) (ClauseForm.allLiterals literals) := by
  have hrest := (h.seq (h.markRight (m := '*') (by decide))).markRight (m := '*') (by decide)
  exact .named (.map ((h.seq hrest).between (by decide) (by decide)) _ fun _ => rfl) _

/-- A sentence tells those of its clauses before its own. -/
theorem tells_sentenceOver {clause : Grammar (ClauseForm F)}
    (h : Tells clause (ClauseForm.allLiterals literals)) (rule : Rule) :
    Tells (sentenceOver rule clause) (SentenceForm.allLiterals literals) :=
  .named (.map (((h.separated (by decide)).between (by decide) (by decide)).seq tells_literals) _
    fun _ => rfl) _

end Nodes

theorem tells_sentence : Tells sentence (SentenceForm.allLiterals WordForm.literals) :=
  tells_sentenceOver (tells_clauseOver tells_word _) _

/-- Both levels, one around the other. -/
theorem tells_superSentence :
    Tells superSentence (SentenceForm.allLiterals (SentenceForm.allLiterals WordForm.literals)) :=
  tells_sentenceOver (tells_clauseOver tells_sentence _) _

/-- **The text of a proposition shows its literals**, all of them and in their order. -/
theorem tells_proposition : Tells proposition PropositionForm.allLiterals :=
  .either (tells_superSentence.map _ fun _ => rfl)
    (.either (tells_sentence.map _ fun _ => rfl) (tells_word.map _ fun _ => rfl))

/-- A text that is read as a proposition is spelled as one. -/
theorem spells_proposition {o : ℕ} {cs : List Char} {f : PropositionForm}
    (h : Spells anyExpression o cs (.part (.proposition f))) : Spells proposition o cs f := by
  rcases h with ⟨_, -, h⟩ | ⟨_, -, h⟩ | ⟨_, hf, h⟩ | ⟨_, -, h⟩ | ⟨_, -, h⟩ | ⟨_, -, h⟩ | ⟨_, -, h⟩ |
    ⟨_, -, h⟩ <;> cases h
  exact hf

/-- **What is found in a whole text** that is read as a proposition are the literals of its form. -/
theorem foundIn_eq {text : String} {f : PropositionForm}
    (h : Spells expression 0 text.toList (.part (.proposition f))) :
    Literal.foundIn text = f.allLiterals := by
  obtain ⟨blanks, cs, blanks', htext, hblanks, hblanks', hcs⟩ := spells_expression.1 h
  have hshows := (Literal.Shows.of_blank hblanks).append
    ((tells_proposition (spells_proposition hcs)).append (.of_blank hblanks'))
  rw [Literal.foundIn, htext, hshows.foundFrom_eq]
  simp

end Productions

end Metalanguage
