import Metalanguage.Proofs.Dictionary.Interning
import Metalanguage.Proofs.Reader.Settled
import Metalanguage.Reader.Requests

/-!
# Proofs/Reader/Requests — handles over whole runs of requests

Reading looks terms up in the order of `ExpressionForm.lookups`: all of them if it succeeds, those
in front of the first unknown one if this is the error, and known ones only in any case
(`Reader.consults`). Whatever is asked of any dictionaries, and wherever one stops, their tables are
sound then and no handle is mistaken for another (`Request.interned_throughout`).
-/

namespace Metalanguage

/-! ## What is looked up for a form -/

/-- **What is looked up** of the terms that a form has, by the outcome. -/
inductive Consults {α : Type} (c : Context) :
    List TermForm → List TermForm → Except Error α → Prop
  | ok {ts : List TermForm} (known : ∀ t ∈ ts, c.Knows t) (a : α) : Consults c ts ts (.ok a)
  | unknown {before : List TermForm} {t : TermForm} (known : ∀ u ∈ before, c.Knows u)
      (unknown : ¬ c.Knows t) (after : List TermForm) :
      Consults c (before ++ t :: after) before (.error (c.unknownTerm t))
  | stopped {before : List TermForm} (known : ∀ u ∈ before, c.Knows u) (after : List TermForm)
      (e : Error) : Consults c (before ++ after) before (.error e)

namespace Consults

variable {α β γ : Type} {c : Context} {ts us vs ws : List TermForm} {x : Except Error α}
  {f : α → Except Error β}

/-- One step after another, which looks terms up if the first one succeeds. -/
theorem bind (h : Consults c ts us x) (hf : ∀ {a}, x = .ok a → Consults c vs ws (f a))
    (herror : ∀ {e}, x = .error e → ws = []) : Consults c (ts ++ vs) (us ++ ws) (x >>= f) := by
  cases h with
  | ok known a =>
    have hnext : Consults c vs ws (f a) := hf rfl
    change Consults c (ts ++ vs) (ts ++ ws) (f a)
    generalize f a = y at hnext
    cases hnext with
    | ok known' b => exact .ok (List.forall_mem_append.2 ⟨known, known'⟩) b
    | unknown known' hunknown after =>
      rw [← List.append_assoc]
      exact .unknown (List.forall_mem_append.2 ⟨known, known'⟩) hunknown after
    | stopped known' after e =>
      rw [← List.append_assoc]
      exact .stopped (List.forall_mem_append.2 ⟨known, known'⟩) after e
  | unknown known hunknown after =>
    rw [herror rfl, List.append_nil, List.append_assoc]
    exact .unknown known hunknown (after ++ vs)
  | stopped known after e =>
    rw [herror rfl, List.append_nil, List.append_assoc]
    exact .stopped known (after ++ vs) e

/-- A last step that looks nothing up. -/
theorem build (h : Consults c ts us x) (f : α → Except Error β) : Consults c ts us (x >>= f) := by
  cases h with
  | ok known a =>
    change Consults c ts ts (f a)
    cases f a with
    | error e =>
      have hstop : Consults c (ts ++ []) ts (.error e : Except Error β) := .stopped known [] e
      rwa [List.append_nil] at hstop
    | ok b => exact .ok known b
  | unknown known hunknown after => exact .unknown known hunknown after
  | stopped known after e => exact .stopped known after e

section Steps

variable {looksUp : γ → List TermForm} {k : γ → Except Error α} {a : γ} {l : List γ}

/-- The first of several steps. -/
theorem step (h : Consults c ts (looksUp a) (k a))
    (hf : ∀ {b}, k a = .ok b → Consults c vs (untilError k looksUp l) (f b)) :
    Consults c (ts ++ vs) (untilError k looksUp (a :: l)) (k a >>= f) := by
  rw [untilError]
  refine h.bind (fun hok => ?_) fun herror => ?_
  · rw [hok]
    exact hf hok
  · rw [herror]
    rfl

/-- The only step. -/
theorem last (h : Consults c ts (looksUp a) (k a)) (f : α → Except Error β) :
    Consults c ts (untilError k looksUp [a]) (k a >>= f) := by
  have hlast : untilError k looksUp [a] = looksUp a := by simp [untilError]
  rw [hlast]
  exact h.build f

/-- A step for each entry of a list. -/
theorem mapM {terms : γ → List TermForm} : ∀ {l : List γ},
    (∀ a ∈ l, Consults c (terms a) (looksUp a) (k a)) →
      Consults c (l.flatMap terms) (untilError k looksUp l) (l.mapM k)
  | [], _ => .ok (List.forall_mem_nil _) []
  | a :: l, h => by
    obtain ⟨hfirst, hmore⟩ := List.forall_mem_cons.1 h
    rw [List.mapM_cons, List.flatMap_cons]
    exact hfirst.step fun _ => (mapM hmore).build _

end Steps

end Consults

variable {c : Context}

/-- **A term is looked up**, and nothing else is done for it. -/
theorem TermForm.consults (f : TermForm) : Consults c [f] (f.consulted c) (f.resolve c) := by
  rw [consulted, resolve, Dictionary.contains]
  cases hterm : c.dictionary.term? f.script with
  | some t =>
    refine .ok (List.forall_mem_singleton.2 ?_) t
    rw [Context.Knows, Dictionary.contains, hterm, Option.isSome_some]
  | none =>
    refine @Consults.unknown _ c [] f (List.forall_mem_nil _) ?_ []
    rw [Context.Knows, Dictionary.contains, hterm, Option.isSome_none]
    exact Bool.false_ne_true

/-- Terms are looked up in order, up to the first that is unknown. -/
theorem MorphemeForm.consults (f : MorphemeForm) :
    Consults c f.terms (f.consulted c) (f.resolve c) := by
  have hterms : Consults c (f.terms.flatMap ([·])) (f.consulted c) (f.terms.mapM (·.resolve c)) :=
    .mapM fun t _ => t.consults
  rw [List.flatMap_singleton'] at hterms
  exact hterms.build _

/-- A mode is not looked up if the substance is refused. -/
theorem WordForm.consults (f : WordForm) : Consults c f.terms (f.consulted c) (f.resolve c) := by
  obtain ⟨substance, mode, literals⟩ := f
  refine substance.consults.step fun _ => ?_
  cases mode with
  | none => exact .ok (List.forall_mem_nil _) _
  | some mode =>
    simp only [Option.toList_some, List.flatMap_singleton]
    exact mode.consults.last _

section Nodes

variable {F N : Type} [ClauseNode N] {terms looksUp : F → List TermForm}
  {resolve : F → Except Error N} (hnode : ∀ f, Consults c (terms f) (looksUp f) (resolve f))

include hnode

/-- Nodes are looked up in order, up to the first that is refused. -/
theorem ClauseForm.consults (f : ClauseForm F) :
    Consults c (f.terms terms) (f.consulted resolve looksUp) (f.resolve resolve) :=
  (hnode f.substance).step fun _ => (hnode f.attr).step fun _ => (hnode f.mode).last _

/-- All clauses are looked up before a tree is built, so the tree stops no lookup. -/
theorem SentenceForm.consults (f : SentenceForm F) (maxNodes : ℕ) :
    Consults c (f.terms terms) (f.consulted resolve looksUp) (f.resolve maxNodes resolve) :=
  (Consults.mapM fun d _ => ClauseForm.consults hnode d).build _

end Nodes

theorem Context.consults (f : SentenceForm WordForm) :
    Consults c (f.terms WordForm.terms) (c.consulted f) (c.sentence f) :=
  f.consults WordForm.consults _

theorem PropositionForm.consults (f : PropositionForm) :
    Consults c f.terms (f.consulted c) (f.resolve c) := by
  cases f with
  | word f => exact f.consults.build _
  | sentence f => exact (Context.consults f).build _
  | superSentence f => exact (f.consults Context.consults _).build _

theorem PartForm.consults (f : PartForm) : Consults c f.terms (f.consulted c) (f.resolve c) := by
  cases f with
  | term f => exact f.consults.build _
  | morpheme f => exact f.consults.build _
  | clause f => exact (f.consults WordForm.consults).build _
  | superClause f => exact (f.consults Context.consults).build _
  | proposition f => exact f.consults.build _

/-- Members are gathered when all have been looked up. -/
theorem TextForm.consults (f : TextForm) : Consults c f.terms (f.consulted c) (f.resolve c) :=
  (Consults.mapM fun p _ => p.consults).build _

/-- **A link looks up its target first.** -/
theorem AnchorForm.consults (f : AnchorForm) (member : Proposition) :
    Consults c f.lookups (f.consulted c) (f.resolve c member) := by
  refine f.target.consults.bind (fun hok => ?_) fun herror => ?_
  · rw [hok]
    exact (Consults.mapM fun p _ => p.consults).build _
  · rw [herror]
    rfl

theorem MemberForm.consults (f : MemberForm) :
    Consults c (f.termsBy AnchorForm.lookups) (f.consulted c) (f.resolve c) := by
  refine f.proposition.consults.bind (fun hok => ?_) fun herror => ?_
  · rw [hok]
    exact (Consults.mapM fun a _ => a.consults _).build _
  · rw [herror]

/-- All members of a source text come before any link is made. -/
theorem BlockForm.consults (f : BlockForm) :
    Consults c (f.termsBy AnchorForm.lookups) (f.consulted c) (f.resolve c) :=
  (Consults.mapM fun m _ => m.consults).build _

/-- **What is looked up for an expression** are its terms in the order of their lookup, as far as
the outcome takes. -/
theorem ExpressionForm.consults (f : ExpressionForm) :
    Consults c f.lookups (f.consulted c) (f.resolve c) := by
  cases f with
  | part f => exact f.consults.build _
  | text f => exact f.consults.build _
  | hypertext blocks => exact (Consults.mapM fun b _ => b.consults).build _

namespace Reader

variable {r : Reader} {source input : String}

/-- **What reading looks up**: nothing in a text that is too long or has no form, and else what the
form tells. -/
theorem consults : (r.consulted source input = [] ∧ ∃ e, r.parse source input = .error e) ∨
    ∃ f, form? input.toList = some f ∧
      Consults ⟨r.dictionary, r.limits.maxNodes, source, input.toList⟩ f.lookups
        (r.consulted source input) (r.parse source input) := by
  rw [consulted, parse]
  split
  · exact .inl ⟨rfl, _, rfl⟩
  · cases hform : form? input.toList with
    | none =>
      simp only [hform]
      exact .inl ⟨trivial, _, rfl⟩
    | some f =>
      simp only [hform]
      exact .inr ⟨f, rfl, f.consults⟩

end Reader

/-! ## Requests -/

/-- Up to its first error a list is what decides the outcome. -/
theorem mapM_untilError {F α : Type} {k : F → Except Error α} :
    ∀ l : List F, (untilError k ([·]) l).mapM k = l.mapM k
  | [] => rfl
  | a :: l => by
    rw [untilError, List.singleton_append, List.mapM_cons, List.mapM_cons]
    cases k a with
    | error e => rfl
    | ok b => rw [Except.isOk, Except.toBool, if_pos rfl, mapM_untilError l]

namespace Request

variable {ι : Type} [DecidableEq ι]

/-- What is looked up for related terms decides which they are, or which error there is. -/
theorem mapM_related (d : Dictionary) (t : TermHandle) (kind : String) :
    ((related t kind).scripts d).mapM d.term = d.related t.term kind := mapM_untilError _

/-- **Whatever is asked of any dictionaries**, at every point the tables hold each script's own
definition, entries are there to stay, lookups answer as the dictionaries do, and handles are on one
instance exactly if they are from one dictionary and have one script; so equality and order may take
their shortcut. The lookups are those that the answers take: reading looks up the terms of the form,
all of them or as far as its error lets it, and the lookups for related terms decide which they are.
-/
theorem interned_throughout (ds : ι → Dictionary) (requests : List (ι × Request)) (n : ℕ) :
    Memory.Interned ds ((lookups ds requests).take n) ∧
      (∀ (r : Reader) (source input : String),
        (r.consulted source input = [] ∧ ∃ e, r.parse source input = .error e) ∨
          ∃ f, Reader.form? input.toList = some f ∧
            Consults ⟨r.dictionary, r.limits.maxNodes, source, input.toList⟩ f.lookups
              (r.consulted source input) (r.parse source input)) ∧
      ∀ (d : Dictionary) (t : TermHandle) (kind : String),
        ((related t kind).scripts d).mapM d.term = d.related t.term kind :=
  ⟨Memory.interned ds _, fun _ _ _ => Reader.consults, mapM_related⟩

end Request

/-! ## A sample -/

namespace Sample

/-- One term is asked for in two dictionaries of the same entries, then in the first again, by a
text with an unknown term. -/
def requests : List (Bool × Request) :=
  [(false, .term "a."), (true, .term "a."), (false, .parse ⟨3, 200⟩ "sample" "([a.]|[zz.])"),
    (true, .term "zz."), (false, .terms), (false, .related ⟨0, noun "a." 0⟩ "next")]

/-- The two dictionaries. -/
def twins : Bool → Dictionary := fun _ => dictionary

/-- The first three lookups, with the handles that they return. -/
def log : List (Lookup Bool × Except Error TermHandle) :=
  Memory.empty.log twins ((Request.lookups twins requests).take 3)

end Sample

/-- The text gets the handle that the first lookup got; that of the other dictionary is equal to it,
but on another instance. -/
theorem Request.interned_throughout_sample : ∃ h k u : TermHandle,
    (⟨false, "a."⟩, .ok h) ∈ Sample.log ∧ (⟨false, "a."⟩, .ok k) ∈ Sample.log ∧
      (⟨true, "a."⟩, .ok u) ∈ Sample.log ∧ h.isSame k = true ∧ h.isSame u = false ∧
        (h == u) = (h.term.canonical == u.term.canonical) := by
  obtain ⟨hinterned, -⟩ := interned_throughout Sample.twins Sample.requests 3
  have hfirst : (⟨false, "a."⟩, .ok ⟨0, Sample.noun "a." 0⟩) ∈ Sample.log := .head _
  have hother : (⟨true, "a."⟩, .ok ⟨1, Sample.noun "a." 0⟩) ∈ Sample.log := .tail _ (.head _)
  have hread : (⟨false, "a."⟩, .ok ⟨0, Sample.noun "a." 0⟩) ∈ Sample.log :=
    .tail _ (.tail _ (.head _))
  exact ⟨_, _, _, hfirst, hread, hother, (hinterned.same_iff hfirst hread).2 rfl,
    hinterned.never_same hfirst hother (by decide), hinterned.equality hfirst hother⟩

end Metalanguage
