import Metalanguage.Proofs.Reader.Lookups
import Metalanguage.Proofs.Reader.Resolved
import Metalanguage.Proofs.TreeGraph.Verdict

/-!
# Proofs/Reader/Settled — what the terms of a form decide

Resolving a form looks its terms up one after the other and builds what it can from them on the way.
Unless something cannot be built (`Misbuilt`), the first term that the dictionary does not have is the
error, and without such a term there is a result (`Settles`). Where a form has an entry wherever there
must be one, some of the errors of the builders cannot be met.
-/

namespace Metalanguage

open Std Ordered

/-! ## Outcomes -/

/-- **What is not built** of terms that are known, and why. -/
inductive Misbuilt (maxNodes : ℕ) : Error → Prop
  | repeatedTerm (term : String) :
    Misbuilt maxNodes (.invalidArgument .morpheme (.repeatedTerm term))
  | notAChild (step parent : String) :
    Misbuilt maxNodes (.invalidArgument .path (.notAChild step parent))
  | conflict (level : Level) (node : String) :
    Misbuilt maxNodes (.structuralConflict level.clause node)
  | cycle (level : Level) (path : List String) :
    Misbuilt maxNodes (.invalidTree level.sentence (.cycle path))
  | multipleRoots (level : Level) (roots : List String) :
    Misbuilt maxNodes (.invalidTree level.sentence (.multipleRoots roots))
  | multipleParents (level : Level) (node : String) (parents : List String) :
    Misbuilt maxNodes (.invalidTree level.sentence (.multipleParents node parents))
  | tooManyNodes (level : Level) {actual : ℕ} (h : maxNodes < actual) :
    Misbuilt maxNodes (.sizeExceeded (.distinctNodes level.sentence) maxNodes actual)

/-- The dictionary has the term. -/
def Context.Knows (c : Context) (t : TermForm) : Prop := c.dictionary.contains t.script = true

/-- **The terms settle the outcome**, looked up in this order. -/
inductive Settles {α : Type} (c : Context) : List TermForm → Except Error α → Prop
  | ok {ts : List TermForm} (known : ∀ t ∈ ts, c.Knows t) (a : α) : Settles c ts (.ok a)
  | unknown {before : List TermForm} {t : TermForm} (known : ∀ u ∈ before, c.Knows u)
      (unknown : ¬ c.Knows t) (after : List TermForm) :
      Settles c (before ++ t :: after) (.error (c.unknownTerm t))
  | misbuilt {e : Error} (h : Misbuilt c.maxNodes e) (ts : List TermForm) : Settles c ts (.error e)

namespace Settles

variable {α β γ : Type} {c : Context} {ts us : List TermForm} {x : Except Error α}
  {f : α → Except Error β}

/-- **An error** comes from the first unknown term, or from what is not built. -/
theorem cases_error {e : Error} (h : Settles c ts (.error e : Except Error α)) :
    (∃ before t after, ts = before ++ t :: after ∧ (∀ u ∈ before, c.Knows u) ∧ ¬ c.Knows t ∧
      e = c.unknownTerm t) ∨ Misbuilt c.maxNodes e := by
  cases h with
  | unknown known hunknown after => exact .inl ⟨_, _, after, rfl, known, hunknown, rfl⟩
  | misbuilt h _ => exact .inr h

/-- One step after another. -/
theorem bind (h : Settles c ts x) (hf : ∀ {a}, x = .ok a → Settles c us (f a)) :
    Settles c (ts ++ us) (x >>= f) := by
  cases h with
  | ok known a =>
    have hnext : Settles c us (f a) := hf rfl
    change Settles c (ts ++ us) (f a)
    generalize f a = y at hnext
    cases hnext with
    | ok known' b => exact .ok (List.forall_mem_append.2 ⟨known, known'⟩) b
    | unknown known' hunknown after =>
      rw [← List.append_assoc]
      exact .unknown (List.forall_mem_append.2 ⟨known, known'⟩) hunknown after
    | misbuilt h _ => exact .misbuilt h _
  -- the second step is not taken, so none of its terms comes before the unknown one
  | unknown known hunknown after =>
    rw [List.append_assoc]
    exact .unknown known hunknown (after ++ us)
  | misbuilt h _ => exact .misbuilt h _

theorem done (a : α) : Settles c [] (.ok a) := .ok (List.forall_mem_nil _) a

/-- A last step looks nothing up. -/
theorem build (h : Settles c ts x) (hf : ∀ {a}, x = .ok a → Settles c [] (f a)) :
    Settles c ts (x >>= f) := List.append_nil ts ▸ h.bind hf

theorem map (h : Settles c ts x) (g : α → β) : Settles c ts (x >>= fun a => .ok (g a)) :=
  h.build fun _ => .done _

/-- A step for each entry of a list. -/
theorem mapM {terms : γ → List TermForm} {k : γ → Except Error α} :
    ∀ {l : List γ}, (∀ a ∈ l, Settles c (terms a) (k a)) →
      Settles c (l.flatMap terms) (l.mapM k)
  | [], _ => .done []
  | a :: l, h => by
    obtain ⟨hfirst, hmore⟩ := List.forall_mem_cons.1 h
    rw [List.mapM_cons, List.flatMap_cons]
    exact hfirst.bind fun _ => (mapM hmore).map _

/-- Such steps that look nothing up. -/
theorem mapM_done {k : γ → Except Error α} {l : List γ} (h : ∀ a ∈ l, Settles c [] (k a)) :
    Settles c [] (l.mapM k) := by
  have hl := mapM h
  rwa [List.flatMap_eq_nil_iff.2 fun _ _ => rfl] at hl

end Settles

variable {c : Context}

/-! ## Words -/

/-- **A term settles itself**: it is there, or it is the unknown one. -/
theorem TermForm.settles (f : TermForm) : Settles c [f] (f.resolve c) := by
  rw [resolve]
  cases hterm : c.dictionary.term? f.script with
  | some t =>
    refine .ok (List.forall_mem_singleton.2 ?_) t
    rw [Context.Knows, Dictionary.contains, hterm, Option.isSome_some]
  | none =>
    refine @Settles.unknown _ c [] f (List.forall_mem_nil _) ?_ []
    rw [Context.Knows, Dictionary.contains, hterm, Option.isSome_none]
    exact Bool.false_ne_true

/-- Of known terms a morpheme is built, unless one comes twice. -/
theorem Morpheme.settles_ofTerms {ts : List Term} (h : ts ≠ []) :
    Settles c [] (Morpheme.ofTerms ts) := by
  rw [ofTerms]
  split
  · next hnil => exact absurd (List.nil_perm.1 (hnil ▸ sort_perm compare ts)) h
  · split
    · exact .misbuilt (.repeatedTerm _) _
    · exact .done _

/-- A morpheme looks its terms up in order and then has no other to ask for. -/
theorem MorphemeForm.Shaped.settles {f : MorphemeForm} (h : f.Shaped) :
    Settles c f.terms (f.resolve c) := by
  have hterms : Settles c (f.terms.flatMap ([·])) (f.terms.mapM (·.resolve c)) :=
    .mapM fun t _ => t.settles
  rw [List.flatMap_singleton'] at hterms
  exact hterms.build fun hok => Morpheme.settles_ofTerms (ne_nil_of_mapM hok h)

theorem WordForm.Shaped.settles {f : WordForm} (h : f.Shaped) :
    Settles c f.terms (f.resolve c) := by
  obtain ⟨substance, mode, literals⟩ := f
  refine h.1.settles.bind fun _ => ?_
  cases mode with
  | none => exact .done _
  | some mode =>
    have hmode : Settles c mode.terms (mode.resolve c) := (h.2 mode rfl).settles
    simp only [Option.toList_some, List.flatMap_singleton]
    exact hmode.map _

/-! ## Clauses and sentences -/

section Nodes

variable {F N : Type} [ClauseNode N] {terms : F → List TermForm} {shaped : F → Prop}
  {resolve : F → Except Error N}

/-- Two equal nodes are all that a clause can be refused for. -/
theorem Clause.settles_of (substance attr mode : N) :
    Settles c [] (Clause.of substance attr mode) := by
  rw [Clause.of]
  split
  · exact .misbuilt (.conflict _ _) _
  · exact .done _

/-- Edges that there are have a root or a circle, and all nodes are in reach of a root. -/
theorem Sentence.settles_ofClauses [LawfulNode N] {clauses : List (Clause N)} (h : clauses ≠ []) :
    Settles c [] (Sentence.ofClauses c.maxNodes clauses) := by
  rw [ofClauses_eq]
  have hverdict := TreeGraph.ofEdges_diagnosis c.maxNodes (clauses.map edgeOf)
  rcases hanswer : TreeGraph.ofEdges c.maxNodes (clauses.map edgeOf) with (d | ⟨limit, actual⟩) | graph
  · rw [hanswer] at hverdict
    cases d with
    | cycle path => exact .misbuilt (.cycle _ _) _
    | noRoot => exact absurd (List.map_eq_nil_iff.1 (hverdict.noRoot.1 rfl).2) h
    | multipleRoots roots => exact .misbuilt (.multipleRoots _ _) _
    | multipleParents node parents => exact .misbuilt (.multipleParents _ _ _) _
    | disconnected nodes => exact absurd rfl (hverdict.connected nodes)
  · obtain ⟨-, -, -, -, hlt, rfl, rfl⟩ := (hverdict.tooManyNodes limit actual).1 hanswer
    exact .misbuilt (.tooManyNodes _ hlt) _
  · exact .done _

variable (hnode : ∀ {f}, shaped f → Settles c (terms f) (resolve f))

include hnode

/-- **A clause** settles what its nodes do, in order. -/
theorem ClauseForm.Shaped.settles {f : ClauseForm F} (h : f.Shaped shaped) :
    Settles c (f.terms terms) (f.resolve resolve) :=
  (hnode h.substance).bind fun _ => (hnode h.attr).bind fun _ => (hnode h.mode).build fun _ =>
    Clause.settles_of _ _ _

/-- **A sentence** settles what its clauses do; it has one, so its tree is refused for a reason of
its own. -/
theorem SentenceForm.Shaped.settles [LawfulNode N] {f : SentenceForm F} (h : f.Shaped shaped) :
    Settles c (f.terms terms) (f.resolve c.maxNodes resolve) := by
  have hclauses := Settles.mapM fun d hd => ClauseForm.Shaped.settles hnode (h.2 d hd)
  exact hclauses.build fun hok => (Sentence.settles_ofClauses (ne_nil_of_mapM hok h.1)).map _

end Nodes

theorem PropositionForm.Shaped.settles {f : PropositionForm} (h : f.Shaped) :
    Settles c f.terms (f.resolve c) := by
  cases f with
  | word f => exact (WordForm.Shaped.settles h).map _
  | sentence f => exact (SentenceForm.Shaped.settles WordForm.Shaped.settles h).map _
  | superSentence f =>
    exact (SentenceForm.Shaped.settles (SentenceForm.Shaped.settles WordForm.Shaped.settles) h).map _

theorem PartForm.Shaped.settles {f : PartForm} (h : f.Shaped) :
    Settles c f.terms (f.resolve c) := by
  cases f with
  | term f => exact f.settles.map _
  | morpheme f => exact (MorphemeForm.Shaped.settles h).map _
  | clause f => exact (ClauseForm.Shaped.settles WordForm.Shaped.settles h).map _
  | superClause f =>
    exact (ClauseForm.Shaped.settles (SentenceForm.Shaped.settles WordForm.Shaped.settles) h).map _
  | proposition f => exact (PropositionForm.Shaped.settles h).map _

/-! ## Texts and links -/

/-- A text of at least one member is always gathered. -/
theorem Text.exists_gather {members : List Proposition} (h : members ≠ []) :
    ∃ t, Text.gather members = .ok t := by
  obtain ⟨p, hp⟩ := List.exists_mem_of_ne_nil members h
  obtain ⟨q, hq, -⟩ := exists_mem_keepFirst compare hp
  exact ⟨⟨keepFirst compare members⟩, ofSet_eq_ok_iff.2 ⟨List.ne_nil_of_mem hq, rfl⟩⟩

/-- So a text settles what its members do. -/
theorem TextForm.Shaped.settles {f : TextForm} (h : f.Shaped) :
    Settles c f.terms (f.resolve c) := by
  refine (Settles.mapM fun p hp => (h.2 p hp).settles).build fun hok => ?_
  obtain ⟨t, ht⟩ := Text.exists_gather (ne_nil_of_mapM hok h.1)
  exact ht ▸ .done t

/-- A path with a first step can only break off at some step. -/
theorem Path.settles_ofSteps (first : Expression) (rest : List Expression) :
    Settles c [] (Path.ofSteps (first :: rest)) := by
  rw [ofSteps]
  split
  · exact .misbuilt (.notAChild _ _) _
  · exact .done _

/-- **A link** looks up its target before its steps. -/
theorem AnchorForm.Shaped.settles {f : AnchorForm} (h : f.Shaped) (member : Proposition) :
    Settles c f.lookups (f.resolve c member) :=
  h.target.settles.bind fun _ => (Settles.mapM fun p hp => (h.steps p hp).settles).build fun _ =>
    (Path.settles_ofSteps _ _).map _

/-- A member comes before all of its links. -/
theorem MemberForm.Shaped.settles {f : MemberForm} (h : f.Shaped) :
    Settles c (f.termsBy AnchorForm.lookups) (f.resolve c) :=
  h.proposition.settles.bind fun _ =>
    (Settles.mapM fun a ha => (h.anchors a ha).settles _).map _

/-- The way of a link goes down from the member that the link stands behind. -/
theorem MemberForm.path_of_resolve {f : MemberForm} {m : Proposition × List (Path × Text)}
    (h : f.resolve c = .ok m) {way : Path × Text} (hway : way ∈ m.2) :
    ∃ descent : List Part, way.1 = (⟨m.1, descent⟩ : Anchor).path := by
  obtain ⟨member, -, h⟩ := bind_eq_ok_iff.1 h
  obtain ⟨ways, hways, h⟩ := bind_eq_ok_iff.1 h
  cases h
  obtain ⟨a, -, ha⟩ := exists_of_mapM hways hway
  obtain ⟨target, -, ha⟩ := bind_eq_ok_iff.1 ha
  obtain ⟨steps, -, ha⟩ := bind_eq_ok_iff.1 ha
  obtain ⟨path, hpath, ha⟩ := bind_eq_ok_iff.1 ha
  cases ha
  obtain ⟨hsteps, -⟩ := Path.ofSteps_eq_ok_iff.1 hpath
  obtain ⟨first, rest⟩ := path
  obtain ⟨rfl, rfl⟩ := List.cons.inj hsteps
  exact ⟨steps, rfl⟩

/-- A source text is made of members that are known by then, and no link from it can miss its path.
-/
theorem BlockForm.Shaped.settles {f : BlockForm} (h : f.Shaped) :
    Settles c (f.termsBy AnchorForm.lookups) (f.resolve c) := by
  refine (Settles.mapM fun m hm => (h.members m hm).settles).build fun {ms} hok => ?_
  obtain ⟨m, hm, -⟩ := h.exists_link
  have hne := ne_nil_of_mapM hok (List.ne_nil_of_mem hm)
  obtain ⟨source, hsource⟩ := Text.exists_gather (mt List.map_eq_nil_iff.1 hne)
  rw [hsource]
  -- a way starts on a member that was gathered into the source, so no link is refused
  refine .mapM_done fun way hway => ?_
  obtain ⟨member, hmember, hway⟩ := List.mem_flatMap.1 hway
  obtain ⟨m, -, hresolve⟩ := exists_of_mapM hok hmember
  obtain ⟨descent, hpath⟩ := MemberForm.path_of_resolve hresolve hway
  obtain ⟨p, hp, hlevel⟩ := exists_mem_keepFirst compare (List.mem_map_of_mem (f := (·.1)) hmember)
  have hreached : ∃ p ∈ source.members, compare p member.1 = .eq :=
    ⟨p, (Text.ofSet_eq_ok_iff.1 hsource).2 ▸ hp, OrientedCmp.eq_symm hlevel⟩
  change Settles c [] (Hyperlink.along source way.2 way.1)
  rw [hpath, Anchor.along_eq way.2 hreached]
  exact .done _

/-- A source text with a link comes with one. -/
theorem BlockForm.Shaped.ne_nil_of_resolve {f : BlockForm} (h : f.Shaped) {links : List Hyperlink}
    (hlinks : f.resolve c = .ok links) : links ≠ [] := by
  obtain ⟨m, hm, hanchors⟩ := h.exists_link
  obtain ⟨ms, hms, hlinks⟩ := bind_eq_ok_iff.1 hlinks
  obtain ⟨source, -, hlinks⟩ := bind_eq_ok_iff.1 hlinks
  obtain ⟨m', hm', hresolve⟩ := exists_mem_of_forall₂ (mapM_eq_ok_iff.1 hms) hm
  obtain ⟨member, -, hresolve⟩ := bind_eq_ok_iff.1 hresolve
  obtain ⟨ways, hways, hresolve⟩ := bind_eq_ok_iff.1 hresolve
  cases hresolve
  obtain ⟨way, hway⟩ := List.exists_mem_of_ne_nil _ (ne_nil_of_mapM hways hanchors)
  exact ne_nil_of_mapM hlinks (List.ne_nil_of_mem (List.mem_flatMap.2 ⟨_, hm', hway⟩))

/-- A hypertext of at least one link is always made. -/
theorem Hypertext.exists_ofLinks {links : List Hyperlink} (h : links ≠ []) :
    ∃ web, Hypertext.ofLinks links = .ok web :=
  ⟨⟨keepLast compare links⟩, ofLinks_eq_ok_iff.2 ⟨h, rfl⟩⟩

/-- **The terms of an expression settle what it is resolved to**, in the order of their lookup. -/
theorem ExpressionForm.Shaped.settles {f : ExpressionForm} (h : f.Shaped) :
    Settles c f.lookups (f.resolve c) := by
  cases f with
  | part f => exact (PartForm.Shaped.settles h).map _
  | text f => exact (TextForm.Shaped.settles h).map _
  | hypertext blocks =>
    refine (Settles.mapM fun b hb => (h.2 b hb).settles).build fun {lists} hok => ?_
    obtain ⟨links, hlinks⟩ := List.exists_mem_of_ne_nil _ (ne_nil_of_mapM hok h.1)
    obtain ⟨b, hb, hresolve⟩ := exists_of_mapM hok hlinks
    obtain ⟨l, hl⟩ := List.exists_mem_of_ne_nil _ ((h.2 b hb).ne_nil_of_resolve hresolve)
    have hne := List.ne_nil_of_mem (List.mem_flatten.2 ⟨links, hlinks, hl⟩)
    obtain ⟨web, hweb⟩ := Hypertext.exists_ofLinks hne
    rw [hweb]
    exact .done _

end Metalanguage
