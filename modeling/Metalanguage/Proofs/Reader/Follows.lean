import Metalanguage.Proofs.Expression.Exchanged
import Metalanguage.Proofs.Reader.Lockstep

/-!
# Proofs/Reader/Follows — a more generous reader follows

A reader may be given a larger dictionary or wider limits. Some errors are then pardoned, and nothing
else changes: the second reading answers what the first one does, up to an exchange of terms, unless
the first one ends in a pardoned error (`Follows`). This is carried from what the two contexts have to
answer for (`Context.Widens`) through every form, in the order that the errors come in, up to whole
texts (`Reader.follows_parse`).
-/

namespace Metalanguage

/-! ## Answers that follow -/

/-- **One answer follows another**: it is the same error, or the result renamed by `f`, unless the
other one is an error that is pardoned. -/
def Follows {α β : Type} (pardoned : Error → Prop) (f : α → β) (x : Except Error α)
    (y : Except Error β) : Prop :=
  y = x.map f ∨ ∃ e, pardoned e ∧ x = .error e

namespace Follows

variable {α β γ δ : Type} {pardoned : Error → Prop} {f : α → β} {x : Except Error α}
  {y : Except Error β}

/-- The same answer, its terms exchanged, follows. -/
theorem of_eq (h : y = x.map f) : Follows pardoned f x y := .inl h

/-- After a pardoned error anything follows. -/
theorem of_pardoned {e : Error} (h : pardoned e) (y : Except Error β) :
    Follows pardoned f (.error e) y := .inr ⟨e, h, rfl⟩

/-- One step after another. -/
theorem bind {g : γ → δ} {k : α → Except Error γ} {k' : β → Except Error δ}
    (h : Follows pardoned f x y) (hk : ∀ a, Follows pardoned g (k a) (k' (f a))) :
    Follows pardoned g (x >>= k) (y >>= k') := by
  rcases h with rfl | ⟨e, he, rfl⟩
  · cases x with
    | error e => exact .of_eq rfl
    | ok a => exact hk a
  · exact .of_pardoned he _

/-- A step for each entry of a list. -/
theorem mapM {k : γ → Except Error α} {k' : γ → Except Error β}
    (h : ∀ c, Follows pardoned f (k c) (k' c)) :
    ∀ l : List γ, Follows pardoned (List.map f) (l.mapM k) (l.mapM k')
  | [] => .of_eq rfl
  | c :: l => by
    rw [List.mapM_cons, List.mapM_cons]
    exact (h c).bind fun _ => (mapM h l).bind fun _ => .of_eq rfl

/-- A step for each entry on what the steps before left. -/
theorem foldlM {k k' : α → γ → Except Error α}
    (h : ∀ a c, Follows pardoned id (k a c) (k' a c)) :
    ∀ (l : List γ) (a : α), Follows pardoned id (l.foldlM k a) (l.foldlM k' a)
  | [], _ => .of_eq rfl
  | c :: l, a => by
    rw [List.foldlM_cons, List.foldlM_cons]
    exact (h a c).bind fun b => foldlM h l b

/-- Where no error is pardoned, to follow is to answer the same. -/
theorem eq_map (h : Follows pardoned f x y) (hx : ∀ e, pardoned e → x ≠ .error e) :
    y = x.map f :=
  h.resolve_right fun ⟨e, he, hxe⟩ => hx e he hxe

/-- Without renaming, the two answers are the same. -/
theorem eq {y : Except Error α} (h : Follows pardoned id x y)
    (hx : ∀ e, pardoned e → x ≠ .error e) : y = x := by
  have hmap := h.eq_map hx
  cases x <;> exact hmap

end Follows

/-! ## Limits -/

/-- **A limit is kept, or widened** where it is pardoned to exceed the old one. -/
def Loosens (pardoned : Error → Prop) (limit limit' : ℕ) : Prop :=
  limit = limit' ∨ limit ≤ limit' ∧ ∀ quantity bound actual,
    pardoned (.sizeExceeded quantity bound actual)

/-- What a limit guards follows when the limit is kept or widened. -/
theorem Loosens.follows_guard {α β : Type} {pardoned : Error → Prop} {limit limit' : ℕ}
    (h : Loosens pardoned limit limit') {quantity : Quantity} {actual : ℕ} {f : α → β}
    {x : Except Error α} {y : Except Error β} (hxy : Follows pardoned f x y) :
    Follows pardoned f
      (if limit < actual then .error (.sizeExceeded quantity limit actual) else x)
      (if limit' < actual then .error (.sizeExceeded quantity limit' actual) else y) := by
  by_cases hlimit : limit < actual
  · rw [if_pos hlimit]
    rcases h with rfl | ⟨-, hpardoned⟩
    · rw [if_pos hlimit]
      exact .of_eq rfl
    · exact .of_pardoned (hpardoned _ _ _) _
  · have hle : limit ≤ limit' := h.elim le_of_eq And.left
    rw [if_neg hlimit, if_neg (by omega)]
    exact hxy

/-- **A wider limit changes no other answer** than that a sentence has too many nodes. -/
theorem Sentence.ofClauses_of_limit_le {N : Type} [ClauseNode N] {limit limit' : ℕ}
    (h : limit ≤ limit') (clauses : List (Clause N)) :
    ofClauses limit' clauses = ofClauses limit clauses ∨
      ∃ quantity actual, ofClauses limit clauses = .error (.sizeExceeded quantity limit actual) := by
  rw [ofClauses_eq, ofClauses_eq]
  rcases TreeGraph.ofEdges_of_limit_le h (clauses.map edgeOf) with heq | ⟨actual, hmany⟩
  · rw [heq]
    exact .inl rfl
  · rw [hmany]
    exact .inr ⟨_, actual, rfl⟩

/-- **A sentence follows**: its tree is built on exchanged nodes, under a limit that may be wider.
-/
theorem Sentence.follows_ofClauses {N : Type} [ClauseNode N] [LawfulNode N] {f : N → N}
    {pardoned : Error → Prop} {limit limit' : ℕ} (hf : Faithful f)
    (h : Loosens pardoned limit limit') (clauses : List (Clause N)) :
    Follows pardoned (map f) (ofClauses limit clauses)
      (ofClauses limit' (clauses.map (Clause.map f))) := by
  rw [ofClauses_map hf]
  rcases h with rfl | ⟨hle, hpardoned⟩
  · exact .of_eq rfl
  · rcases ofClauses_of_limit_le hle clauses with heq | ⟨quantity, actual, hmany⟩
    · rw [heq]
      exact .of_eq rfl
    · rw [hmany]
      exact .of_pardoned (hpardoned _ _ _) _

/-! ## Contexts -/

/-- **A context widens another one**: terms are exchanged for terms of a dictionary that may have
more of them, and limits may be wider, as far as it is pardoned that the first context lacks them. -/
structure Context.Widens (pardoned : Error → Prop) (φ : Term → Term) (c c' : Context) : Prop where
  exchange : Exchange φ
  term : ∀ script, c'.dictionary.term? script = (c.dictionary.term? script).map φ ∨
    c.dictionary.term? script = none ∧
      ∀ failure, failure.reason = .unknownTerm script → pardoned (.parse failure)
  maxNodes : Loosens pardoned c.maxNodes c'.maxNodes
  source : c'.source = c.source
  text : c'.text = c.text

variable {pardoned : Error → Prop} {φ : Term → Term} {c c' : Context}
  (h : c.Widens pardoned φ c')

include h

/-! ## Levels below texts -/

/-- The dictionary that is larger has the term, or the smaller one does not and this is pardoned. -/
theorem TermForm.follows_resolve (f : TermForm) :
    Follows pardoned φ (f.resolve c) (f.resolve c') := by
  have hunknown : c'.unknownTerm f = c.unknownTerm f := by
    rw [Context.unknownTerm, h.source, h.text, Context.unknownTerm]
  rw [resolve, resolve, hunknown]
  rcases h.term f.script with hterm | ⟨hnone, hpardoned⟩
  · rw [hterm]
    cases c.dictionary.term? f.script <;> exact .of_eq rfl
  · rw [hnone]
    exact .of_pardoned (hpardoned _ rfl) _

/-- Terms are resolved in order, so the first error is the same one. -/
theorem MorphemeForm.follows_resolve (f : MorphemeForm) :
    Follows pardoned (·.mapTerms φ) (f.resolve c) (f.resolve c') :=
  (Follows.mapM (TermForm.follows_resolve h) f.terms).bind fun terms =>
    .of_eq (h.exchange.ofTerms terms)

theorem WordForm.follows_resolve (f : WordForm) :
    Follows pardoned (Word.mapTerms φ) (f.resolve c) (f.resolve c') := by
  obtain ⟨substance, mode, literals⟩ := f
  refine (MorphemeForm.follows_resolve h substance).bind fun _ => ?_
  cases mode with
  | none => exact .of_eq rfl
  | some mode => exact (MorphemeForm.follows_resolve h mode).bind fun _ => .of_eq rfl

section Nodes

variable {F N : Type} [ClauseNode N] [LawfulNode N] {g : N → N} {node node' : F → Except Error N}
  (hg : Faithful g) (hnode : ∀ f, Follows pardoned g (node f) (node' f))

include hg hnode

omit h in
/-- A clause resolves its nodes in order and then compares two of them. -/
theorem ClauseForm.follows_resolve (f : ClauseForm F) :
    Follows pardoned (Clause.map g) (f.resolve node) (f.resolve node') :=
  (hnode f.substance).bind fun substance => (hnode f.attr).bind fun attr =>
    (hnode f.mode).bind fun mode => .of_eq (Clause.of_map hg substance attr mode)

/-- A sentence resolves all clauses before its tree is built under the limit of its own context. -/
theorem SentenceForm.follows_resolve (f : SentenceForm F) :
    Follows pardoned (Sentence.map g) (f.resolve c.maxNodes node) (f.resolve c'.maxNodes node') :=
  (Follows.mapM (ClauseForm.follows_resolve hg hnode) f.clauses).bind fun clauses =>
    (Sentence.follows_ofClauses hg h.maxNodes clauses).bind fun _ => .of_eq rfl

end Nodes

theorem Context.follows_sentence (f : SentenceForm WordForm) :
    Follows pardoned (Sentence.map (Word.mapTerms φ)) (c.sentence f) (c'.sentence f) :=
  SentenceForm.follows_resolve h h.exchange.word (WordForm.follows_resolve h) f

/-- The three forms of a proposition, on one level or two. -/
theorem PropositionForm.follows_resolve (f : PropositionForm) :
    Follows pardoned (·.mapTerms φ) (f.resolve c) (f.resolve c') := by
  cases f with
  | word f => exact (WordForm.follows_resolve h f).bind fun _ => .of_eq rfl
  | sentence f => exact (Context.follows_sentence h f).bind fun _ => .of_eq rfl
  | superSentence f =>
    exact (SentenceForm.follows_resolve h h.exchange.sentence (Context.follows_sentence h) f).bind
      fun _ => .of_eq rfl

theorem PartForm.follows_resolve (f : PartForm) :
    Follows pardoned (·.mapTerms φ) (f.resolve c) (f.resolve c') := by
  cases f with
  | term f => exact (TermForm.follows_resolve h f).bind fun _ => .of_eq rfl
  | morpheme f => exact (MorphemeForm.follows_resolve h f).bind fun _ => .of_eq rfl
  | clause f =>
    exact (ClauseForm.follows_resolve h.exchange.word (WordForm.follows_resolve h) f).bind
      fun _ => .of_eq rfl
  | superClause f =>
    exact (ClauseForm.follows_resolve h.exchange.sentence (Context.follows_sentence h) f).bind
      fun _ => .of_eq rfl
  | proposition f =>
    exact (PropositionForm.follows_resolve h f).bind fun p =>
      .of_eq (congrArg Except.ok (p.toPart_mapTerms φ))

/-! ## Texts and links -/

/-- Members are gathered after all have been resolved. -/
theorem TextForm.follows_resolve (f : TextForm) :
    Follows pardoned (·.mapTerms φ) (f.resolve c) (f.resolve c') :=
  (Follows.mapM (PropositionForm.follows_resolve h) f.members).bind fun members =>
    .of_eq (h.exchange.gather members)

/-- **A link follows** from the exchanged member: first its target, then its steps, then the path.
-/
theorem AnchorForm.follows_resolve (member : Proposition) (f : AnchorForm) :
    Follows pardoned (Prod.map (·.mapTerms φ) (·.mapTerms φ)) (f.resolve c member)
      (f.resolve c' (member.mapTerms φ)) := by
  refine (TextForm.follows_resolve h f.target).bind fun target => ?_
  refine (Follows.mapM (PartForm.follows_resolve h) f.steps).bind fun steps => ?_
  have hsteps : ((member.mapTerms φ).toPart :: steps.map (·.mapTerms φ)).map Expression.part =
      ((member.toPart :: steps).map Expression.part).map (·.mapTerms φ) := by
    simp only [List.map_cons, List.map_map, Proposition.toPart_mapTerms]
    rfl
  rw [hsteps]
  exact (Follows.of_eq (h.exchange.ofSteps _)).bind fun _ => .of_eq rfl

theorem MemberForm.follows_resolve (f : MemberForm) :
    Follows pardoned (Prod.map (·.mapTerms φ) (List.map (Prod.map (·.mapTerms φ) (·.mapTerms φ))))
      (f.resolve c) (f.resolve c') :=
  (PropositionForm.follows_resolve h f.proposition).bind fun member =>
    (Follows.mapM (AnchorForm.follows_resolve h member) f.anchors).bind fun _ => .of_eq rfl

/-- A source text is gathered before links are made from it. -/
theorem BlockForm.follows_resolve (f : BlockForm) :
    Follows pardoned (List.map (·.mapTerms φ)) (f.resolve c) (f.resolve c') := by
  refine (Follows.mapM (MemberForm.follows_resolve h) f.members).bind fun members => ?_
  have hfirst : (members.map (Prod.map (·.mapTerms φ)
      (List.map (Prod.map (·.mapTerms φ) (·.mapTerms φ))))).map Prod.fst =
        (members.map Prod.fst).map (·.mapTerms φ) := by
    rw [List.map_map, List.map_map]
    rfl
  have hways : (members.map (Prod.map (·.mapTerms φ)
      (List.map (Prod.map (·.mapTerms φ) (·.mapTerms φ))))).flatMap Prod.snd =
        (members.flatMap Prod.snd).map (Prod.map (·.mapTerms φ) (·.mapTerms φ)) := by
    rw [List.flatMap_map, List.map_flatMap]
    rfl
  rw [hfirst, hways]
  refine (Follows.of_eq (h.exchange.gather _)).bind fun source => ?_
  exact .of_eq (mapM_map_of_comm (fun way => h.exchange.along source way.2 way.1) _)

/-! ## Expressions -/

/-- **Forms are resolved as before**, but for pardoned errors. -/
theorem ExpressionForm.follows_resolve (f : ExpressionForm) :
    Follows pardoned (·.mapTerms φ) (f.resolve c) (f.resolve c') := by
  cases f with
  | part f => exact (PartForm.follows_resolve h f).bind fun _ => .of_eq rfl
  | text f => exact (TextForm.follows_resolve h f).bind fun _ => .of_eq rfl
  | hypertext blocks =>
    refine (Follows.mapM (BlockForm.follows_resolve h) blocks).bind fun links => ?_
    rw [← List.map_flatten]
    exact (Follows.of_eq (h.exchange.ofLinks _)).bind fun _ => .of_eq rfl

omit h

/-- **A more generous reader reads as before**, but for pardoned errors. -/
theorem Reader.follows_parse {r r' : Reader} {source input : String}
    (h : (r.context source input).Widens pardoned φ (r'.context source input))
    (hbytes : Loosens pardoned r.limits.maxBytes r'.limits.maxBytes) :
    Follows pardoned (·.mapTerms φ) (r.parse source input) (r'.parse source input) := by
  rw [parse, parse]
  refine hbytes.follows_guard ?_
  dsimp only
  cases form? input.toList with
  | none => exact .of_eq rfl
  | some form => exact form.follows_resolve h

end Metalanguage
