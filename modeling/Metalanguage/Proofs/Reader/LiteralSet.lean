import Metalanguage.Description
import Metalanguage.Proofs.Grammar.Literals
import Metalanguage.Proofs.Reader.HypertextLiterals
import Metalanguage.Proofs.Reader.LiteralsBack
import Metalanguage.Proofs.Reader.Reread
import Metalanguage.Proofs.Reader.Spacing

/-!
# Proofs/Reader/LiteralSet — no literal is lost from a sentence

A tree keeps one of several equal nodes, but the clauses that are its edges keep their own nodes with
their literals. So the literals that are written in a text are those of the sentence that it is read
as, and of all that the sentence holds at any depth, each as often as it is written, and its set of
literals has them all (`Reader.no_literal_lost`).
-/

namespace Metalanguage

open List (Forall₂)
open Std Ordered

/-! ## Literals as a set -/

namespace Literal

instance : TransOrd Literal := inferInstanceAs (TransCmp (compareOn Literal.raw))

theorem raw_injective : Function.Injective raw := fun _ _ h => congrArg mk h

theorem compare_eq_iff {l m : Literal} : compare l m = .eq ↔ l = m := by
  rw [show compare l m = compare l.raw m.raw from rfl, LawfulEqOrd.compare_eq_iff_eq]
  exact raw_injective.eq_iff

/-- **The set of literals has the literals**, and no others. -/
theorem mem_setOf {l : Literal} {ls : List Literal} : l ∈ setOf ls ↔ l ∈ ls := by
  refine ⟨mem_of_mem_keepLast, fun h => ?_⟩
  obtain ⟨m, hm, hlm⟩ := exists_mem_keepLast compare h
  rwa [compare_eq_iff.1 hlm]

end Literal

/-! ## The literals of a proposition -/

section Nodes

variable {N : Type} (node : N → List Literal)

/-- The literals of the nodes of a clause. -/
def Clause.allLiterals (c : Clause N) : List Literal := c.nodes.flatMap node

/-- The literals of the clauses of a sentence, then its own. -/
def Sentence.allLiterals (s : Sentence N) : List Literal :=
  s.clauses.flatMap (Clause.allLiterals node) ++ s.literals

end Nodes

namespace Proposition

/-- **The literals of a proposition**, at any depth. -/
def allLiterals : Proposition → List Literal
  | word w => w.literals
  | sentence s => s.allLiterals Word.literals
  | superSentence s => s.allLiterals (Sentence.allLiterals Word.literals)

/-- The set of literals of a proposition. -/
def literalSet : Proposition → List Literal
  | word w => ClauseNode.literalSet w
  | sentence s => s.literalSet
  | superSentence s => s.literalSet

/-- A proposition, and all that it holds. -/
def occurrences (p : Proposition) : List Part := p.toPart :: p.toPart.descendants

end Proposition

/-- The set of literals of a sentence has those of the sentence and of its nodes. -/
theorem Sentence.mem_literalSet {N : Type} [ClauseNode N] {node : N → List Literal}
    (h : ∀ {l : Literal} {n : N}, l ∈ ClauseNode.literalSet n ↔ l ∈ node n) {s : Sentence N}
    {l : Literal} : l ∈ s.literalSet ↔ l ∈ s.allLiterals node := by
  rw [literalSet, Literal.mem_setOf, allLiterals, List.mem_append, List.mem_append, or_comm]
  simp only [List.mem_flatMap, Clause.allLiterals, h]

theorem Word.mem_literalSet {l : Literal} {w : Word} :
    l ∈ ClauseNode.literalSet w ↔ l ∈ w.literals := Literal.mem_setOf

/-- **The set of literals of a proposition** has its literals, and no others. -/
theorem Proposition.mem_literalSet {p : Proposition} {l : Literal} :
    l ∈ p.literalSet ↔ l ∈ p.allLiterals := by
  cases p with
  | word w => exact Word.mem_literalSet
  | sentence s => exact Sentence.mem_literalSet Word.mem_literalSet
  | superSentence s => exact Sentence.mem_literalSet (Sentence.mem_literalSet Word.mem_literalSet)

theorem Proposition.increasing_literalSet (p : Proposition) : Increasing compare p.literalSet := by
  cases p <;> exact increasing_keepLast _

/-! ## Part by part -/

/-- Lists of entries that bring the same, in some order. -/
theorem perm_flatMap {A B X : Type} {f : A → List X} {g : B → List X} {l : List A} {m : List B}
    (h : Forall₂ (fun a b => (f a).Perm (g b)) l m) : (l.flatMap f).Perm (m.flatMap g) := by
  induction h with
  | nil => exact .nil
  | cons hab _ ih => exact hab.append ih

namespace Part

/-- The literals that are attached to a part itself. -/
def literals (p : Part) : List Literal := (Expression.part p).literals

theorem flatMap_literals_ofWord (w : Word) : (ofWord w).flatMap literals = [] := by
  simp [ofWord, ofMorpheme, literals, Expression.literals, List.flatMap_assoc]

theorem flatMap_literals_ofClause (c : Clause Word) :
    (ofClause c).flatMap literals = c.allLiterals Word.literals := by
  rw [ofClause, List.flatMap_assoc, Clause.allLiterals]
  refine List.flatMap_congr fun w _ => ?_
  rw [List.flatMap_cons, flatMap_literals_ofWord, List.append_nil]
  rfl

theorem flatMap_literals_sentence (s : Sentence Word) :
    ((sentence s :: ofSentence s).flatMap literals).Perm (s.allLiterals Word.literals) := by
  have hclauses : (ofSentence s).flatMap literals =
      s.clauses.flatMap (Clause.allLiterals Word.literals) := by
    rw [ofSentence, List.flatMap_assoc]
    refine List.flatMap_congr fun c _ => ?_
    rw [List.flatMap_cons, flatMap_literals_ofClause]
    rfl
  rw [List.flatMap_cons, hclauses]
  exact List.perm_append_comm

theorem flatMap_literals_superSentence (s : SuperSentence) :
    ((superSentence s :: ofSuperSentence s).flatMap literals).Perm
      (s.allLiterals (Sentence.allLiterals Word.literals)) := by
  have hclauses : ((ofSuperSentence s).flatMap literals).Perm
      (s.clauses.flatMap (Clause.allLiterals (Sentence.allLiterals Word.literals))) := by
    rw [ofSuperSentence, List.flatMap_assoc]
    refine List.Perm.flatMap_left _ fun c _ => ?_
    have hnodes : (superClause c :: ofSuperClause c).flatMap literals =
        c.nodes.flatMap fun n => (sentence n :: ofSentence n).flatMap literals :=
      List.flatMap_assoc ..
    rw [hnodes]
    exact List.Perm.flatMap_left _ fun n _ => flatMap_literals_sentence n
  rw [List.flatMap_cons]
  exact (hclauses.append_left _).trans List.perm_append_comm

end Part

/-- **The literals of a proposition** are those that are attached to it and to all that it holds. -/
theorem Proposition.occurrences_perm (p : Proposition) :
    (p.occurrences.flatMap Part.literals).Perm p.allLiterals := by
  cases p with
  | word w =>
    have hword : (Proposition.word w).occurrences.flatMap Part.literals = w.literals := by
      rw [occurrences, List.flatMap_cons]
      exact (congrArg _ (Part.flatMap_literals_ofWord w)).trans (List.append_nil _)
    exact .of_eq hword
  | sentence s => exact Part.flatMap_literals_sentence s
  | superSentence s => exact Part.flatMap_literals_superSentence s

/-! ## From forms to propositions -/

section Nodes

variable {F N : Type} {inForm : F → List Literal} {inNode : N → List Literal}

theorem ClauseForm.allLiterals_perm {f : ClauseForm F} {c : Clause N}
    (hsubstance : (inForm f.substance).Perm (inNode c.substance))
    (hattr : (inForm f.attr).Perm (inNode c.attr)) (hmode : (inForm f.mode).Perm (inNode c.mode)) :
    (f.allLiterals inForm).Perm (c.allLiterals inNode) := by
  simpa [allLiterals, Clause.allLiterals, Clause.nodes] using hsubstance.append (hattr.append hmode)

/-- The literals of a sentence do not depend on the order of its clauses. -/
theorem SentenceForm.allLiterals_perm {f : SentenceForm F} {t : Sentence N}
    {clauses : List (Clause N)}
    (h : Forall₂ (fun d c => (d.allLiterals inForm).Perm (c.allLiterals inNode)) f.clauses clauses)
    (hclauses : clauses.Perm t.clauses) (hliterals : f.literals = t.literals) :
    (f.allLiterals inForm).Perm (t.allLiterals inNode) := by
  rw [allLiterals, Sentence.allLiterals, hliterals]
  exact ((perm_flatMap h).trans (hclauses.flatMap_right _)).append_right _

section Resolving

variable [ClauseNode N] {node : F → Except Error N}

theorem ClauseForm.allLiterals_of_resolve
    (hnode : ∀ f n, node f = .ok n → (inForm f).Perm (inNode n)) {f : ClauseForm F} {c : Clause N}
    (h : f.resolve node = .ok c) : (f.allLiterals inForm).Perm (c.allLiterals inNode) := by
  obtain ⟨substance, hsubstance, h⟩ := bind_eq_ok_iff.1 h
  obtain ⟨attr, hattr, h⟩ := bind_eq_ok_iff.1 h
  obtain ⟨mode, hmode, h⟩ := bind_eq_ok_iff.1 h
  obtain rfl := Clause.eq_of_of h
  exact allLiterals_perm (hnode _ _ hsubstance) (hnode _ _ hattr) (hnode _ _ hmode)

/-- **Resolving a sentence keeps its literals**: the tree puts the clauses in order, and each of them
keeps its own nodes. -/
theorem SentenceForm.allLiterals_of_resolve [LawfulNode N]
    (hnode : ∀ f n, node f = .ok n → (inForm f).Perm (inNode n)) {f : SentenceForm F} {limit : ℕ}
    {t : Sentence N} (h : f.resolve limit node = .ok t) :
    (f.allLiterals inForm).Perm (t.allLiterals inNode) := by
  have hliterals : t.literals = f.literals := literals_of_resolve h
  obtain ⟨clauses, hclauses, h⟩ := bind_eq_ok_iff.1 h
  obtain ⟨u, hu, h⟩ := bind_eq_ok_iff.1 h
  cases h
  have hresolved := (mapM_eq_ok_iff.1 hclauses).imp fun _ _ => ClauseForm.allLiterals_of_resolve hnode
  have htree := (Sentence.ofClauses_eq_ok_iff.1 hu).1
  exact allLiterals_perm hresolved (Sentence.clauses_perm htree).symm hliterals.symm

end Resolving

theorem SentenceForm.allLiterals_of_standsFor {node : F → N → Prop}
    (hnode : ∀ f n, node f n → (inForm f).Perm (inNode n)) {f : SentenceForm F} {t : Sentence N}
    (h : f.StandsFor .written node t) : (f.allLiterals inForm).Perm (t.allLiterals inNode) :=
  allLiterals_perm (h.clauses.imp fun _ _ hc => ClauseForm.allLiterals_perm
    (hnode _ _ hc.substance) (hnode _ _ hc.attr) (hnode _ _ hc.mode)) (.refl _) h.literals

end Nodes

namespace PropositionForm

/-- **Resolving keeps all literals.** -/
theorem allLiterals_of_resolve {c : Context} {f : PropositionForm} {p : Proposition}
    (h : f.resolve c = .ok p) : f.allLiterals.Perm p.allLiterals := by
  have hword : ∀ (f : WordForm) (w : Word), f.resolve c = .ok w → f.literals.Perm w.literals :=
    fun _ _ h => .of_eq (WordForm.literals_of_resolve h).symm
  cases f with
  | word f =>
    obtain ⟨w, hw, h⟩ := bind_eq_ok_iff.1 h
    cases h
    exact hword _ _ hw
  | sentence f =>
    obtain ⟨s, hs, h⟩ := bind_eq_ok_iff.1 h
    cases h
    exact SentenceForm.allLiterals_of_resolve hword hs
  | superSentence f =>
    obtain ⟨s, hs, h⟩ := bind_eq_ok_iff.1 h
    cases h
    exact SentenceForm.allLiterals_of_resolve
      (fun _ _ hs => SentenceForm.allLiterals_of_resolve hword hs) hs

/-- A form that stands for a proposition as written has its literals. -/
theorem StandsFor.allLiterals_perm {f : PropositionForm} {p : Proposition}
    (h : f.StandsFor .written p) : f.allLiterals.Perm p.allLiterals := by
  have hword : ∀ (f : WordForm) (w : Word), f.StandsFor .written w → f.literals.Perm w.literals :=
    fun _ _ h => .of_eq h.literals
  cases h with
  | word h => exact hword _ _ h
  | sentence h => exact SentenceForm.allLiterals_of_standsFor hword h
  | superSentence h =>
    exact SentenceForm.allLiterals_of_standsFor
      (fun _ _ h => SentenceForm.allLiterals_of_standsFor hword h) h

end PropositionForm

/-- Only the form of a proposition is resolved to one. -/
theorem PartForm.exists_of_resolve_toPart {c : Context} {f : PartForm} {p : Proposition}
    (h : f.resolve c = .ok p.toPart) : ∃ g, f = .proposition g ∧ g.resolve c = .ok p := by
  cases f with
  | proposition g =>
    obtain ⟨q, hq, heq⟩ := exists_of_wrapped h
    exact ⟨g, rfl, Proposition.toPart_injective heq ▸ hq⟩
  | _ =>
    obtain ⟨_, -, heq⟩ := exists_of_wrapped h
    cases p <;> cases heq

/-! ## Texts -/

/-- **Nothing is lost** of the literals in a text that is read as a proposition: they stand in the
written form too, and at the places of the proposition, each as often, and the set of literals has
just them. -/
structure Proposition.KeepsLiterals (p : Proposition) (input : String) : Prop where
  increasing : Increasing compare p.literalSet
  mem_iff_held : ∀ l, l ∈ p.literalSet ↔ ∃ q ∈ p.occurrences, l ∈ q.literals
  mem_iff_displayed : ∀ l, l ∈ p.literalSet ↔ l ∈ Literal.foundIn p.display
  mem_iff_written : ∀ l, l ∈ p.literalSet ↔ l ∈ Literal.foundIn input
  displayed_perm : (Literal.foundIn p.display).Perm (p.occurrences.flatMap Part.literals)
  written_perm : (Literal.foundIn input).Perm (p.occurrences.flatMap Part.literals)

/-- A super-sentence whose mode is its substance once more, with other literals, one of them with an
escaped bracket. -/
def Sample.deeplyNoted : String :=
  "[([([([a.])]<1>*[([b.])]*[([s.])]<2>)]<3>*[([([b.])]*[([a.])]*[([s.])])]*" ++
    "[([([a.])]<4>*[([b.])]*[([s.])])]<\\>>)]<5>"

namespace Reader

variable {r : Reader} {source input : String} {p : Proposition}

/-- What is read as the form of a proposition shows the literals of the form. -/
theorem foundIn_of_form? {text : String} {f : PropositionForm}
    (h : form? text.toList = some (.part (.proposition f))) :
    Literal.foundIn text = f.allLiterals := by
  obtain ⟨⟨_, d⟩, hread, heq⟩ := Option.map_eq_some_iff.1 h
  obtain rfl := heq
  exact Productions.foundIn_eq (Productions.read_expression.1 ⟨d, hread⟩)

/-- What is read as a proposition has the form of one. -/
theorem exists_proposition_form (h : r.parse source input = .ok (.part p.toPart)) :
    ∃ f, form? input.toList = some (.part (.proposition f)) ∧
      f.resolve (r.context source input) = .ok p := by
  obtain ⟨-, f, hf, h⟩ := exists_form_of_parse h
  cases f with
  | part f =>
    obtain ⟨_, hq, heq⟩ := exists_of_wrapped h
    obtain rfl := Expression.part.inj heq
    obtain ⟨g, rfl, hg⟩ := PartForm.exists_of_resolve_toPart hq
    exact ⟨g, hf, hg⟩
  | text f =>
    obtain ⟨_, -, heq⟩ := exists_of_wrapped h
    cases heq
  | hypertext blocks =>
    obtain ⟨_, -, h⟩ := bind_eq_ok_iff.1 h
    obtain ⟨_, -, heq⟩ := exists_of_wrapped h
    cases heq

/-- What is read as a proposition is built of the dictionary and of literals that are made. -/
theorem built_of_parse_proposition (h : r.parse source input = .ok (.part p.toPart)) :
    p.toPart.Built r.dictionary.material := by
  rcases expressionIn_of_parse h with ⟨⟨hp⟩, -⟩ | ⟨script, hscript⟩
  · exact hp
  · obtain ⟨t, -, -, heq⟩ := exists_term_of_parse hscript h
    cases p <;> cases heq

/-- **No literal is lost.** Whatever text is read as a word, a sentence or a super-sentence, its set
of literals is the set of those in the text, in its written form, and on it and all that it holds. -/
theorem no_literal_lost (hr : r.dictionary.Accepted)
    (h : r.parse source input = .ok (.part p.toPart)) : p.KeepsLiterals input := by
  obtain ⟨f, hf, hresolve⟩ := exists_proposition_form h
  have hwritten : (Literal.foundIn input).Perm p.allLiterals :=
    foundIn_of_form? hf ▸ PropositionForm.allLiterals_of_resolve hresolve
  obtain ⟨g, hg, hstands⟩ :=
    exists_form?_display (built_of_parse_proposition h) (hr.legible .written)
  have hdisplayed : (Literal.foundIn p.display).Perm p.allLiterals :=
    foundIn_of_form? hg ▸ hstands.allLiterals_perm
  have hheld := p.occurrences_perm
  exact {
    increasing := p.increasing_literalSet
    mem_iff_held := fun l => by
      rw [Proposition.mem_literalSet, ← hheld.mem_iff, List.mem_flatMap]
    mem_iff_displayed := fun l => by rw [Proposition.mem_literalSet, hdisplayed.mem_iff]
    mem_iff_written := fun l => by rw [Proposition.mem_literalSet, hwritten.mem_iff]
    displayed_perm := hdisplayed.trans hheld.symm
    written_perm := hwritten.trans hheld.symm }

theorem no_literal_lost_deep : ∃ p : Proposition,
    Sample.reader.parse "sample" Sample.deeplyNoted = .ok (.part p.toPart) ∧
      ∀ l, l ∈ p.literalSet ↔ l.raw ∈ ["1", "2", "3", "4", "\\>", "5"] := by
  have hread : ∃ s, Sample.reader.parse "sample" Sample.deeplyNoted =
      .ok (.part (Proposition.superSentence s).toPart) := ⟨_, rfl⟩
  obtain ⟨s, hs⟩ := hread
  have hfound : (Literal.foundIn Sample.deeplyNoted).map Literal.raw =
      ["1", "2", "3", "4", "\\>", "5"] := by decide +kernel
  refine ⟨.superSentence s, hs, fun l => ?_⟩
  rw [(no_literal_lost Sample.accepted hs).mem_iff_written l, ← hfound,
    List.mem_map_of_injective Literal.raw_injective]

end Reader

end Metalanguage
