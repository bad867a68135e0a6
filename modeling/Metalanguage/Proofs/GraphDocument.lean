import Metalanguage.GraphDocument
import Metalanguage.Proofs.Grammar.Denoting
import Metalanguage.Proofs.Reader.HypertextLiterals
import Metalanguage.Proofs.Reader.Spacing
import Metalanguage.Proofs.TreeGraph.Verdict

/-!
# Proofs/GraphDocument — graph documents say what texts say

The graph of a document can be written out as a text, with the text of a node spliced in wherever its
number stands. Reading the document gives what reading that text gives, be it a word, a sentence or an
error (`Reader.graphs_spliced`).
-/

namespace Metalanguage

open List (Forall₂)
open Grammar

/-! ## Texts that are read -/

/-- **What a text denotes** is what is read. -/
theorem Reader.parse_eq_of_denotes {r : Reader} {source input : String}
    {x : Except Error Expression}
    (h : Denotes Productions.anyExpression (fun f x => f.resolve (r.context source input) = x)
      input.toList x) (hbytes : input.utf8ByteSize ≤ r.limits.maxBytes) :
    r.parse source input = x := by
  obtain ⟨t, ht, hx⟩ := h
  have hgenerates : Generates ((), t, ()) input.toList := generates_iff.2 ht
  obtain ⟨f, hf, hparse⟩ := r.exists_gives_of_generates source hgenerates hbytes
  exact hparse.trans (hx f hf)

/-- Only the form of a word is resolved to a word. -/
theorem ExpressionForm.exists_word {c : Context} {f : ExpressionForm} {w : Word}
    (h : f.resolve c = .ok (.part (.word w))) :
    ∃ g, f = .part (.proposition (.word g)) ∧ g.resolve c = .ok w := by
  cases f with
  | text f =>
    obtain ⟨_, -, h⟩ := bind_eq_ok_iff.1 h
    cases h
  | hypertext blocks =>
    obtain ⟨_, -, h⟩ := bind_eq_ok_iff.1 h
    obtain ⟨_, -, h⟩ := bind_eq_ok_iff.1 h
    cases h
  | part f =>
    obtain ⟨_, hpart, h⟩ := bind_eq_ok_iff.1 h
    cases h
    cases f with
    | term f | morpheme f | clause f | superClause f =>
      obtain ⟨_, -, hpart⟩ := bind_eq_ok_iff.1 hpart
      cases hpart
    | proposition f =>
      obtain ⟨_, hmember, hpart⟩ := bind_eq_ok_iff.1 hpart
      cases f with
      | sentence f | superSentence f =>
        obtain ⟨_, -, hmember⟩ := bind_eq_ok_iff.1 hmember
        cases hmember
        cases hpart
      | word f =>
        obtain ⟨_, hword, hmember⟩ := bind_eq_ok_iff.1 hmember
        cases hmember
        cases hpart
        exact ⟨f, rfl, hword⟩

theorem not_gives_map {F G : Type} {g : Grammar F} {φ : F → G} {y : G} (h : ∀ x, φ x ≠ y)
    (t : (Grammar.map φ g).Derivation) : ¬(Grammar.map φ g).Gives t y := fun hgives => by
  obtain ⟨x, -, hx⟩ := hgives.map
  exact h x hx

theorem not_gives_either {F : Type} {g g' : Grammar F} {x : F} (h : ∀ t, ¬g.Gives t x)
    (h' : ∀ t, ¬g'.Gives t x) (t : (Grammar.either g g').Derivation) :
    ¬(Grammar.either g g').Gives t x := fun hgives => by
  obtain ⟨u, -, hu⟩ | ⟨u, -, hu⟩ := hgives.either
  · exact h u hu
  · exact h' u hu

/-- Only a derivation of a word gives the form of a word. -/
theorem exists_gives_word {t : Productions.anyExpression.Derivation} {g : WordForm}
    (h : Productions.anyExpression.Gives t (.part (.proposition (.word g)))) :
    ∃ u, Productions.anyExpression.tokens t = Productions.word.tokens u ∧
      Productions.word.Gives u g := by
  rcases h.either with ⟨u, rfl, hhypertext⟩ | ⟨_, rfl, h₁⟩
  · exact absurd hhypertext (not_gives_map nofun u)
  rcases h₁.either with ⟨u, rfl, htext⟩ | ⟨_, rfl, h₂⟩
  · exact absurd htext (not_gives_map nofun u)
  rcases h₂.either with ⟨_, rfl, hmember⟩ | ⟨u, rfl, hbelow⟩
  · obtain ⟨p, hmember, heq⟩ := hmember.map
    cases heq
    rcases hmember.either with ⟨u, rfl, hsuper⟩ | ⟨_, rfl, h₃⟩
    · exact absurd hsuper (not_gives_map nofun u)
    rcases h₃.either with ⟨u, rfl, hsentence⟩ | ⟨u, rfl, hword⟩
    · exact absurd hsentence (not_gives_map nofun u)
    obtain ⟨_, hword, heq⟩ := hword.map
    cases heq
    exact ⟨u, rfl, hword⟩
  · exact absurd hbelow (not_gives_either (not_gives_map nofun) (not_gives_either
      (not_gives_map nofun) (not_gives_either (not_gives_map nofun) (not_gives_either
        (not_gives_map nofun) (not_gives_map nofun)))) u)

/-- One reader in lockstep with itself, whatever errors it answers. -/
def Reader.lockstep (r : Reader) (source source' input input' : String) :
    Lockstep .nothing (fun _ _ => True) (r.context source input) (r.context source' input') :=
  .exact _ (fun _ => trivial) rfl rfl fun _ => trivial

/-- A text that is read as a word denotes it in any other text, too. -/
theorem Reader.denotes_word {r : Reader} {source source' input input' : String} {w : Word}
    (h : r.parse source input = .ok (.part (.word w))) :
    Denotes Productions.word (fun f x => f.resolve (r.context source' input') = .ok x)
      input.toList w := by
  obtain ⟨hbytes, t, ht⟩ := exists_generates_of_parse h
  obtain ⟨f, hf, hparse⟩ := r.exists_gives_of_generates source ht hbytes
  obtain ⟨g, rfl, hg⟩ := ExpressionForm.exists_word (hparse.symm.trans h)
  obtain ⟨u, htokens, hu⟩ := exists_gives_word hf
  refine ⟨u, htokens ▸ generates_iff.1 ht, fun g' hg' => ?_⟩
  obtain ⟨w', hw', heq⟩ := (Productions.carries_word (r.lockstep source source' input input')
    (Change.of_bare _ rfl) hu hg').exists_ok hg
  exact hw'.trans (congrArg _ heq.symm)

/-- The canonical form of a term denotes it. -/
theorem Reader.denotes_term {r : Reader} (hr : r.dictionary.Accepted) {t : Term}
    (ht : t ∈ r.dictionary.terms) (source input : String) :
    Denotes Productions.term (fun f x => f.resolve (r.context source input) = .ok x)
      t.canonical.toList t := by
  have hvalid := hr.valid ht
  have hscript : Denotes Productions.script (fun s t => s = t.script) t.script.toList t := by
    refine ⟨⟨t.script.toList, Script.ne_nil_of_isValid hvalid, ?_⟩, .singleton _, fun s hs => ?_⟩
    · exact List.all_eq_true.1 (Bool.and_eq_true_iff.1 hvalid).1
    · simpa using hs.named.script
  have htext : t.canonical.toList = '[' :: (t.script.toList ++ [']']) := by
    simp [Term.canonical]
  have hc : (r.context source input).Holds r.dictionary.stock := ⟨hr, id⟩
  rw [htext]
  exact ((hscript.between '[' ']').named _).placed.map _ fun hf =>
    TermForm.StandsFor.resolve_eq hc hf ht

/-! ## Numbered nodes -/

/-- The numbers in a clause. -/
def ClauseRoles.ids (roles : ClauseRoles) : List ℕ := [roles.substance, roles.attr, roles.mode]

namespace GraphDocument

variable {r : Reader} {nodes : List NumberedNode}

/-- What is read does not depend on what a text is called. -/
theorem parse_of_parse {source source' input : String} {x : Expression}
    (h : r.parse source input = .ok x) : r.parse source' input = .ok x := by
  obtain ⟨hbytes, t, ht⟩ := Reader.exists_generates_of_parse h
  obtain ⟨y, hy, heq⟩ := (Reader.outcome_parse (r.lockstep source source' input input) ht ht
    (.refl _ t) hbytes hbytes).exists_ok h
  exact hy.trans (congrArg _ heq.symm)

theorem readNodes_eq (value : ℕ → Expression) {source : String}
    (hdistinct : (nodes.map (·.id)).Nodup)
    (h : ∀ n ∈ nodes, r.parse source n.written = .ok (value n.id)) :
    readNodes r nodes = .ok (nodes.map fun n => (n.id, value n.id)) := by
  suffices hfold : ∀ table : Table, (∀ n ∈ nodes, table.any (·.1 == n.id) = false) →
      nodes.foldlM (readNode r) table = .ok (table ++ nodes.map fun n => (n.id, value n.id)) from
    hfold [] fun _ _ => rfl
  induction nodes with
  | nil =>
    intro table _
    exact congrArg _ (List.append_nil table).symm
  | cons n nodes ih =>
    intro table hfree
    obtain ⟨hn, hnodes⟩ := List.forall_mem_cons.1 h
    obtain ⟨hnew, hdistinct⟩ := List.nodup_cons.1 hdistinct
    obtain ⟨hfreen, hfree⟩ := List.forall_mem_cons.1 hfree
    have hstep : readNode r table n = .ok (table ++ [(n.id, value n.id)]) := by
      rw [readNode, parse_of_parse hn]
      exact if_neg (Bool.eq_false_iff.1 hfreen)
    have hfree' : ∀ m ∈ nodes, (table ++ [(n.id, value n.id)]).any (·.1 == m.id) = false := by
      intro m hm
      have hne : n.id ≠ m.id := fun heq => hnew (List.mem_map.2 ⟨m, hm, heq.symm⟩)
      simp [List.any_append, hfree m hm, hne]
    rw [List.foldlM_cons, hstep]
    exact (ih hdistinct hnodes _ hfree').trans (by simp)

theorem lookup_eq (value : ℕ → Expression) {id : ℕ} (hid : id ∈ nodes.map (·.id)) :
    lookup (nodes.map fun n => (n.id, value n.id)) id = .ok (value id) := by
  have hlookup : List.lookup id (nodes.map fun n => (n.id, value n.id)) = some (value id) := by
    induction nodes with
    | nil => cases hid
    | cons n nodes ih =>
      rw [List.map_cons, List.lookup_cons]
      by_cases heq : id = n.id
      · rw [heq, beq_self_eq_true]
      · rw [beq_eq_false_iff_ne.2 heq]
        exact ih ((List.mem_cons.1 hid).resolve_left heq)
  rw [lookup, hlookup]

/-! ## Graphs written out -/

/-- The expression of a number, as its node has it. -/
def writtenAt (nodes : List NumberedNode) (id : ℕ) : String :=
  ((nodes.find? (·.id == id)).map (·.written)).getD ""

/-- A clause of spliced words. -/
def clauseText (nodes : List NumberedNode) (roles : ClauseRoles) : String :=
  "(" ++ writtenAt nodes roles.substance ++ "*" ++ writtenAt nodes roles.attr ++ "*" ++
    writtenAt nodes roles.mode ++ ")"

/-- **A sentence of spliced words.** -/
def sentenceText (nodes : List NumberedNode) (graph : List ClauseRoles) : String :=
  "[" ++ "+".intercalate (graph.map (clauseText nodes)) ++ "]"

/-- A morpheme of the terms of some numbers. -/
def morphemeText (term : ℕ → Term) (ids : List ℕ) : String :=
  "(" ++ "|".intercalate (ids.map fun id => (term id).canonical) ++ ")"

/-- **A word of the terms of some numbers.** -/
def wordText (term : ℕ → Term) (roles : WordRoles) : String :=
  match roles.mode with
  | [] => "[" ++ morphemeText term roles.substance ++ "]"
  | mode => "[" ++ morphemeText term roles.substance ++ "*" ++ morphemeText term mode ++ "]"

theorem writtenAt_eq (hdistinct : (nodes.map (·.id)).Nodup) {n : NumberedNode} (hn : n ∈ nodes) :
    writtenAt nodes n.id = n.written := by
  have hfind : nodes.find? (·.id == n.id) = some n := by
    induction nodes with
    | nil => cases hn
    | cons m nodes ih =>
      obtain ⟨hnew, hdistinct⟩ := List.nodup_cons.1 hdistinct
      rw [List.find?_cons]
      obtain rfl | hn := List.mem_cons.1 hn
      · simp
      · have hne : m.id ≠ n.id := fun heq => hnew (List.mem_map.2 ⟨n, hn, heq.symm⟩)
        rw [beq_eq_false_iff_ne.2 hne]
        exact ih hdistinct hn
  rw [writtenAt, hfind]
  rfl

/-! ## What spliced texts denote -/

section Splicing

variable {table : Table} {source input : String}

/-- A form around another one is resolved around what that is resolved to. -/
theorem denotes_map {F G N M : Type} {g : Grammar F} {φ : F → G} {ψ : N → M}
    {resolve : F → Except Error N} {resolve' : G → Except Error M} {cs : List Char}
    {x : Except Error N} (h : Denotes g (fun f x => resolve f = x) cs x)
    (hφ : ∀ f, resolve' (φ f) = resolve f >>= fun n => pure (ψ n)) :
    Denotes (.map φ g) (fun f x => resolve' f = x) cs (x.map ψ) := by
  refine h.map φ fun {f} hf => ?_
  rw [hφ, hf]
  cases x <;> rfl

/-- What a member denotes, the expression denotes. -/
theorem denotes_proposition {cs : List Char} {x : Except Error Proposition}
    (h : Denotes Productions.proposition (fun f x => f.resolve (r.context source input) = x) cs x) :
    Denotes Productions.anyExpression (fun f x => f.resolve (r.context source input) = x) cs
      (x.map fun p => .part p.toPart) := by
  refine (((denotes_map h fun f => ?_).left _).right _).right _
  change ((f.resolve _ >>= fun p => pure p.toPart) >>= fun p => pure (Expression.part p)) = _
  cases f.resolve (r.context source input) <;> rfl

theorem denotes_whole_word {cs : List Char} {x : Except Error Word}
    (h : Denotes Productions.word (fun f x => f.resolve (r.context source input) = x) cs x) :
    Denotes Productions.anyExpression (fun f x => f.resolve (r.context source input) = x) cs
      (x.map fun w => .part (.word w)) := by
  have hmember : Denotes Productions.proposition
      (fun f x => f.resolve (r.context source input) = x) cs (x.map .word) :=
    ((denotes_map h fun _ => rfl).right _).right _
  cases x <;> exact denotes_proposition hmember

theorem denotes_whole_sentence {cs : List Char} {x : Except Error (Sentence Word)}
    (h : Denotes Productions.sentence (fun f x => (r.context source input).sentence f = x) cs x) :
    Denotes Productions.anyExpression (fun f x => f.resolve (r.context source input) = x) cs
      (x.map fun s => .part (.sentence s)) := by
  have hmember : Denotes Productions.proposition
      (fun f x => f.resolve (r.context source input) = x) cs (x.map .sentence) :=
    ((denotes_map h fun _ => rfl).left _).right _
  cases x <;> exact denotes_proposition hmember

/-- Morphemes in brackets denote the word of them without literals. -/
theorem denotes_literalFree {cs : List Char} {substance : Except Error Morpheme}
    {mode : Option (Except Error Morpheme)} {x : Except Error Word}
    (h : Denotes (.seq Productions.morpheme (optional (seqRight (.mark '*') Productions.morpheme)))
      (fun f p => f.1.resolve (r.context source input) = p.1 ∧
        Option.Rel (fun f x => f.resolve (r.context source input) = x) f.2 p.2) cs (substance, mode))
    (hx : ∀ {f g}, f.resolve (r.context source input) = substance →
      Option.Rel (fun f x => f.resolve (r.context source input) = x) g mode →
        WordForm.resolve (r.context source input) ⟨f, g, []⟩ = x) :
    Denotes Productions.word (fun f x => f.resolve (r.context source input) = x)
      ('[' :: (cs ++ [']'])) x := by
  rw [← List.append_nil ('[' :: (cs ++ [']']))]
  refine (((h.between '[' ']').seq (denotes_nil _)).map _ ?_).named _
  rintro ⟨⟨f, mode⟩, literals⟩ ⟨⟨hf, hmode⟩, hliterals⟩
  obtain rfl : literals = [] := hliterals
  exact hx hf hmode

section Clauses

variable {word : ℕ → Word}
  (htable : ∀ id ∈ nodes.map (·.id), lookup table id = .ok (.part (.word (word id))))
  (hword : ∀ id ∈ nodes.map (·.id), Denotes Productions.word
    (fun f w => f.resolve (r.context source input) = .ok w) (writtenAt nodes id).toList (word id))

include htable hword

/-- A clause of spliced words denotes the clause of the document. -/
theorem denotes_clause {roles : ClauseRoles} (hids : ∀ id ∈ roles.ids, id ∈ nodes.map (·.id)) :
    Denotes Productions.clause
      (fun f roles => (r.context source input).clause f = clauseAt table roles)
      (clauseText nodes roles).toList roles := by
  obtain ⟨hs, ha, hm⟩ : roles.substance ∈ nodes.map (·.id) ∧ roles.attr ∈ nodes.map (·.id) ∧
      roles.mode ∈ nodes.map (·.id) := by simpa [ClauseRoles.ids] using hids
  have hat : ∀ id ∈ nodes.map (·.id), wordAt table id = .ok (word id) := fun id hid => by
    rw [wordAt, htable id hid]
    rfl
  have htext : (clauseText nodes roles).toList =
      '(' :: (((writtenAt nodes roles.substance).toList ++ '*' ::
        ((writtenAt nodes roles.attr).toList ++ '*' :: (writtenAt nodes roles.mode).toList)) ++
          [')']) := by simp [clauseText]
  have hnodes := (hword _ hs).seq (((hword _ ha).seq ((hword _ hm).markRight '*')).markRight '*')
  rw [htext]
  refine ((hnodes.between '(' ')').map _ ?_).named _
  rintro ⟨substance, attr, mode⟩ ⟨hsubstance, hattr, hmode⟩
  rw [Context.clause, ClauseForm.resolve, hsubstance, hattr, hmode, clauseAt, hat _ hs, hat _ ha,
    hat _ hm]

/-- A sentence of spliced words denotes the sentence of the document. -/
theorem denotes_sentence {graph : List ClauseRoles} (hne : graph ≠ [])
    (hids : ∀ roles ∈ graph, ∀ id ∈ roles.ids, id ∈ nodes.map (·.id)) :
    Denotes Productions.sentence (fun f x => (r.context source input).sentence f = x)
      (sentenceText nodes graph).toList
      (graph.mapM (clauseAt table) >>= Sentence.ofClauses r.limits.maxNodes) := by
  have hclauses := Denotes.separated '+'
    (fun roles hroles => denotes_clause htable hword (hids roles hroles)) hne
  have htext : (sentenceText nodes graph).toList =
      ('[' :: (['+'].intercalate (graph.map fun roles => (clauseText nodes roles).toList) ++ [']']))
        ++ [] := by simp [sentenceText, Function.comp_def]
  rw [htext]
  refine (((hclauses.between '[' ']').seq (denotes_nil _)).map _ ?_).named _
  rintro ⟨clauses, literals⟩ ⟨hclauses, rfl⟩
  have hmap : clauses.mapM (ClauseForm.resolve (WordForm.resolve (r.context source input))) =
      graph.mapM (clauseAt table) := mapM_eq_of_forall₂ hclauses
  rw [Context.sentence, SentenceForm.resolve, hmap]
  cases graph.mapM (clauseAt table) with
  | error e => rfl
  | ok clauses =>
    have hbare : (Sentence.ofClauses r.limits.maxNodes clauses >>= fun s =>
        pure (s.withLiterals [])) = Sentence.ofClauses r.limits.maxNodes clauses := by
      rw [Sentence.ofClauses_eq]
      cases TreeGraph.ofEdges r.limits.maxNodes (clauses.map Sentence.edgeOf) <;> rfl
    exact hbare

end Clauses

section Terms

variable {term : ℕ → Term}
  (htable : ∀ id ∈ nodes.map (·.id), lookup table id = .ok (.part (.term (term id))))
  (hterm : ∀ id ∈ nodes.map (·.id), Denotes Productions.term
    (fun f t => f.resolve (r.context source input) = .ok t) (term id).canonical.toList (term id))

include htable hterm

/-- A morpheme of some terms denotes the morpheme of the document. -/
theorem denotes_morpheme {ids : List ℕ} (hne : ids ≠ [])
    (hids : ∀ id ∈ ids, id ∈ nodes.map (·.id)) :
    Denotes Productions.morpheme (fun f x => f.resolve (r.context source input) = x)
      (morphemeText term ids).toList (morphemeAt table ids) := by
  have hat : ∀ id ∈ ids, Denotes Productions.term
      (fun f id => f.resolve (r.context source input) = termAt table id)
      (term id).canonical.toList id := fun id hid => by
    have hterm' : termAt table id = .ok (term id) := by
      rw [termAt, htable id (hids id hid)]
      rfl
    exact (hterm id (hids id hid)).imp fun hf => hf.trans hterm'.symm
  have htext : (morphemeText term ids).toList =
      '(' :: (['|'].intercalate (ids.map fun id => (term id).canonical.toList) ++ [')']) := by
    simp [morphemeText, Function.comp_def]
  rw [htext]
  refine (((Denotes.separated '|' hat hne).between '(' ')').map _ ?_).named _
  intro terms hterms
  rw [MorphemeForm.resolve, morphemeAt, mapM_eq_of_forall₂ hterms]

/-- A word of some terms denotes the word of the document. -/
theorem denotes_wordText {roles : WordRoles} (hne : roles.substance ≠ [])
    (hids : ∀ id ∈ roles.substance ++ roles.mode, id ∈ nodes.map (·.id)) :
    Denotes Productions.word (fun f x => f.resolve (r.context source input) = x)
      (wordText term roles).toList (do
        let substance ← morphemeAt table roles.substance
        match roles.mode with
        | [] => return ⟨substance, none, []⟩
        | mode => return ⟨substance, some (← morphemeAt table mode), []⟩) := by
  obtain ⟨hsubstance, hmode⟩ := List.forall_mem_append.1 hids
  obtain ⟨substance, mode⟩ := roles
  have hfirst := denotes_morpheme htable hterm hne hsubstance
  cases mode with
  | nil =>
    have htext : (wordText term ⟨substance, []⟩).toList =
        '[' :: (((morphemeText term substance).toList ++ []) ++ [']']) := by simp [wordText]
    rw [htext]
    refine denotes_literalFree (hfirst.seq (denotes_none _ _)) fun {f mode} hf hnone => ?_
    cases hnone
    change (f.resolve _ >>= fun m => pure (Word.mk m none [])) = _
    rw [hf]
  | cons id ids =>
    have htext : (wordText term ⟨substance, id :: ids⟩).toList =
        '[' :: (((morphemeText term substance).toList ++
          '*' :: (morphemeText term (id :: ids)).toList) ++ [']']) := by simp [wordText]
    have hsecond := denotes_morpheme htable hterm (List.cons_ne_nil id ids) hmode
    rw [htext]
    refine denotes_literalFree (hfirst.seq (hsecond.markRight '*').just) fun {f mode} hf hsome => ?_
    cases hsome with
    | @some g _ hg =>
      change (f.resolve _ >>= fun m => g.resolve _ >>= fun n => pure (Word.mk m (some n) [])) = _
      rw [hf, hg]

end Terms

end Splicing

/-! ## Documents and texts -/

/-- A document of words is read like the text of its graph. -/
theorem parse_sentenceText {source text : String} {graph : List ClauseRoles}
    (hcontent : sentenceContentOf? text = some (nodes, graph))
    (hdistinct : (nodes.map (·.id)).Nodup)
    (hnodes : ∀ n ∈ nodes, ∃ w, r.parse source n.written = .ok (.part (.word w)))
    (hne : graph ≠ []) (hids : ∀ roles ∈ graph, ∀ id ∈ roles.ids, id ∈ nodes.map (·.id))
    (hbytes : (sentenceText nodes graph).utf8ByteSize ≤ r.limits.maxBytes) :
    r.parse source (sentenceText nodes graph) =
      (r.sentenceFromGraph text).map fun s => .part (.sentence s) := by
  have hat : ∀ id ∈ nodes.map (·.id), ∃ w,
      r.parse source (writtenAt nodes id) = .ok (.part (.word w)) := by
    intro id hid
    obtain ⟨n, hn, rfl⟩ := List.mem_map.1 hid
    exact writtenAt_eq hdistinct hn ▸ hnodes n hn
  have : Nonempty Word := ⟨⟨⟨[]⟩, none, []⟩⟩
  choose! word hword using hat
  let value : ℕ → Expression := fun id => .part (.word (word id))
  have hread := readNodes_eq value hdistinct fun n hn =>
    writtenAt_eq hdistinct hn ▸ hword n.id (List.mem_map_of_mem hn)
  have hfromGraph : r.sentenceFromGraph text =
      graph.mapM (clauseAt (nodes.map fun n => (n.id, value n.id))) >>=
        Sentence.ofClauses r.limits.maxNodes := by
    rw [Reader.sentenceFromGraph, hcontent]
    change sentenceOf r nodes graph = _
    rw [sentenceOf, hread]
    rfl
  rw [hfromGraph]
  exact Reader.parse_eq_of_denotes (denotes_whole_sentence (denotes_sentence
    (fun id hid => lookup_eq value hid) (fun id hid => Reader.denotes_word (hword id hid)) hne
      hids)) hbytes

/-- A document of terms is read like the text of its graph. -/
theorem parse_wordText (hr : r.dictionary.Accepted) {source text : String} {roles : WordRoles}
    {term : ℕ → Term} (hcontent : wordContentOf? text = some (nodes, roles))
    (hdistinct : (nodes.map (·.id)).Nodup)
    (hnodes : ∀ n ∈ nodes, r.parse source n.written = .ok (.part (.term (term n.id))))
    (hne : roles.substance ≠ [])
    (hids : ∀ id ∈ roles.substance ++ roles.mode, id ∈ nodes.map (·.id))
    (hbytes : (wordText term roles).utf8ByteSize ≤ r.limits.maxBytes) :
    r.parse source (wordText term roles) =
      (r.wordFromGraph text).map fun w => .part (.word w) := by
  let value : ℕ → Expression := fun id => .part (.term (term id))
  have hread := readNodes_eq value hdistinct hnodes
  have hterm : ∀ id ∈ nodes.map (·.id), term id ∈ r.dictionary.terms := by
    intro id hid
    obtain ⟨n, hn, rfl⟩ := List.mem_map.1 hid
    obtain ⟨hbuilt⟩ := Reader.built_of_parse (hnodes n hn)
    exact hbuilt
  have hfromGraph : r.wordFromGraph text = wordOf r nodes roles := by
    rw [Reader.wordFromGraph, hcontent]
  rw [hfromGraph, wordOf, hread]
  exact Reader.parse_eq_of_denotes (denotes_whole_word (denotes_wordText
    (fun id hid => lookup_eq value hid)
    (fun id hid => Reader.denotes_term hr (hterm id hid) source _) hne hids)) hbytes

end GraphDocument

namespace Reader

/-- **Graph documents say what texts say**: the same sentence or word, or the same error. -/
theorem graphs_spliced {r : Reader} (hr : r.dictionary.Accepted) (source : String) :
    (∀ {text : String} {nodes : List NumberedNode} {graph : List ClauseRoles},
        GraphDocument.sentenceContentOf? text = some (nodes, graph) → (nodes.map (·.id)).Nodup →
        (∀ n ∈ nodes, ∃ w, r.parse source n.written = .ok (.part (.word w))) → graph ≠ [] →
        (∀ roles ∈ graph, ∀ id ∈ roles.ids, id ∈ nodes.map (·.id)) →
        (GraphDocument.sentenceText nodes graph).utf8ByteSize ≤ r.limits.maxBytes →
          r.parse source (GraphDocument.sentenceText nodes graph) =
            (r.sentenceFromGraph text).map fun s => .part (.sentence s)) ∧
      ∀ {text : String} {nodes : List NumberedNode} {roles : WordRoles} {term : ℕ → Term},
        GraphDocument.wordContentOf? text = some (nodes, roles) → (nodes.map (·.id)).Nodup →
        (∀ n ∈ nodes, r.parse source n.written = .ok (.part (.term (term n.id)))) →
        roles.substance ≠ [] →
        (∀ id ∈ roles.substance ++ roles.mode, id ∈ nodes.map (·.id)) →
        (GraphDocument.wordText term roles).utf8ByteSize ≤ r.limits.maxBytes →
          r.parse source (GraphDocument.wordText term roles) =
            (r.wordFromGraph text).map fun w => .part (.word w) :=
  ⟨GraphDocument.parse_sentenceText, GraphDocument.parse_wordText hr⟩

end Reader

/-! ## A sample -/

namespace Sample

/-- Three words, one of them with a literal and one between blanks. -/
def wordNodes : List NumberedNode :=
  [⟨4, "[([a.])]<here>"⟩, ⟨1, "[([b.])]"⟩, ⟨9, " [([s.])] "⟩]

/-- A document of one clause. -/
def sentenceDocument : String :=
  "\x7b\"nodes\": [\x7b\"id\": 4, \"ieml_string\": \"[([a.])]<here>\"\x7d, " ++
    "\x7b\"id\": 1, \"ieml_string\": \"[([b.])]\"\x7d, " ++
    "\x7b\"id\": 9, \"ieml_string\": \" [([s.])] \"\x7d], " ++
    "\"graph\": [\x7b\"substance\": 4, \"attribute\": 1, \"mode\": 9\x7d]\x7d"

/-- The three terms, one of them without brackets. -/
def termNodes : List NumberedNode := [⟨1, "b."⟩, ⟨0, "[a.]"⟩, ⟨2, "[s.]"⟩]

/-- A document of a word with a mode. -/
def wordDocument : String :=
  "\x7b\"nodes\": [\x7b\"id\": 1, \"ieml_string\": \"b.\"\x7d, " ++
    "\x7b\"id\": 0, \"ieml_string\": \"[a.]\"\x7d, \x7b\"id\": 2, \"ieml_string\": \"[s.]\"\x7d], " ++
    "\"graph\": \x7b\"substance\": [2, 0], \"mode\": [1]\x7d\x7d"

/-- The terms by their numbers. -/
def numbered (id : ℕ) : Term :=
  match id with
  | 0 => noun "a." 0
  | 1 => noun "b." 1
  | _ => noun "s." 2

end Sample

namespace Reader

/-- A sentence and a word, as documents and as texts. -/
theorem graphs_spliced_documents :
    Sample.reader.parse "sample" "[([([a.])]<here>*[([b.])]* [([s.])] )]" =
        (Sample.reader.sentenceFromGraph Sample.sentenceDocument).map
          (fun s => .part (.sentence s)) ∧
      Sample.reader.parse "sample" "[([s.]|[a.])*([b.])]" =
        (Sample.reader.wordFromGraph Sample.wordDocument).map fun w => .part (.word w) := by
  obtain ⟨hsentence, hword⟩ := graphs_spliced (r := Sample.reader) Sample.accepted "sample"
  constructor
  · have hcontent : GraphDocument.sentenceContentOf? Sample.sentenceDocument =
        some (Sample.wordNodes, [⟨4, 1, 9⟩]) := by decide +kernel
    have htext : GraphDocument.sentenceText Sample.wordNodes [⟨4, 1, 9⟩] =
        "[([([a.])]<here>*[([b.])]* [([s.])] )]" := by decide +kernel
    have hnodes : ∀ n ∈ Sample.wordNodes, ∃ w,
        Sample.reader.parse "sample" n.written = .ok (.part (.word w)) :=
      List.forall_mem_cons.2 ⟨⟨Sample.word (Sample.noun "a." 0) [.ofText "here"], rfl⟩,
        List.forall_mem_cons.2 ⟨⟨Sample.word (Sample.noun "b." 1) [], rfl⟩,
          List.forall_mem_singleton.2 ⟨Sample.word (Sample.noun "s." 2) [], rfl⟩⟩⟩
    exact htext ▸ hsentence hcontent (by decide) hnodes (by decide) (by decide) (by decide)
  · have hcontent : GraphDocument.wordContentOf? Sample.wordDocument =
        some (Sample.termNodes, ⟨[2, 0], [1]⟩) := by decide +kernel
    have htext : GraphDocument.wordText Sample.numbered ⟨[2, 0], [1]⟩ =
        "[([s.]|[a.])*([b.])]" := by decide +kernel
    have hnodes : ∀ n ∈ Sample.termNodes, Sample.reader.parse "sample" n.written =
        .ok (.part (.term (Sample.numbered n.id))) :=
      List.forall_mem_cons.2 ⟨rfl, List.forall_mem_cons.2 ⟨rfl, List.forall_mem_singleton.2 rfl⟩⟩
    exact htext ▸ hword hcontent (by decide) hnodes (by decide) (by decide) (by decide)

end Reader

end Metalanguage
