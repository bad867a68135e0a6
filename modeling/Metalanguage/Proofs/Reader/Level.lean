import Metalanguage.Proofs.Expression.ClauseOrder
import Metalanguage.Proofs.Expression.Containment
import Metalanguage.Proofs.Reader.Lockstep

/-!
# Proofs/Reader/Level — builders cannot tell level arguments apart

Whatever is built of level parts is level, and what is refused for one of two level arguments is
refused for the other, for the same cause up to quoted literals (`Error.gist`). So two readings by
one dictionary run in lockstep up to level results, whatever the two texts may differ in
(`Lockstep.level`).
-/

namespace Metalanguage

open List (Forall₂)
open Std Ordered

/-! ## Errors up to literals -/

/-- A misfit without the displays that it quotes. -/
def Misfit.gist : Misfit → Misfit
  | .notAChild _ _ => .notAChild "" ""
  | .unreachable _ _ => .unreachable "" ""
  | misfit => misfit

/-- **An error without what literals show in**: places in the text, and quoted displays. -/
def Error.gist : Error → Error
  | .invalidArgument construct misfit => .invalidArgument construct misfit.gist
  | .parse f => .parse { f with range := ⟨0, 0⟩, place := ⟨1, 1⟩ }
  | e => e

/-- The outcomes of two readings up to level results and quoted literals. -/
abbrev LevelOutcomes {X : Type} [Ord X] (v : Variation) (x y : Except Error X) : Prop :=
  Outcomes v (fun e e' => e.gist = e'.gist) (fun a b => compare a b = .eq) x y

variable {v : Variation}

/-! ## Words and sentences -/

/-- Terms that are level have one script, so the same terms come twice. -/
theorem Morpheme.ofTerms_level {l m : List Term}
    (h : v.Lists (fun t u => compare t u = .eq) l m) :
    LevelOutcomes v (ofTerms l) (ofTerms m) := by
  obtain ⟨k, hk, hperm⟩ := h.exists_perm
  have hsort : Alike compare (sort compare l) (sort compare m) := sort_alike hk hperm
  rw [ofTerms, ofTerms]
  generalize sort compare l = l', sort compare m = m' at hsort
  cases hsort with
  | nil => exact .error rfl
  | cons htu hsort =>
    have hbeq : ∀ ⦃t t' u u' : Term⦄, compare t t' = .eq → compare u u' = .eq →
        (t == u) = (t' == u') := fun _ _ _ _ ht hu => by
      rw [Bool.eq_iff_iff, Term.beq_iff, Term.beq_iff, TransCmp.congr_left ht,
        TransCmp.congr_right hu]
    have hpair := neighbours?_alike hbeq (List.Forall₂.cons htu hsort)
    dsimp only
    generalize neighbours? _ (_ :: _) = p at hpair ⊢
    generalize neighbours? _ (_ :: _) = q at hpair ⊢
    cases hpair with
    | none => exact .ok (compare_list_eq_iff.2 (.cons htu hsort))
    | some hpq => exact .error (by rw [Term.canonical_congr hpq.1])

section Nodes

variable {N : Type} [ClauseNode N] [LawfulNode N]

/-- The canonical forms of level nodes are the same, and so is the question whether two of them are.
-/
theorem Clause.of_level {a a' b b' m m' : N} (ha : compare a a' = .eq) (hb : compare b b' = .eq)
    (hm : compare m m' = .eq) : LevelOutcomes v (Clause.of a b m) (Clause.of a' b' m') := by
  rw [Clause.of, Clause.of, LawfulNode.canonical_congr ha, LawfulNode.canonical_congr hb]
  split
  · exact .error rfl
  · exact .ok (Clause.compare_eq_iff.2 ⟨ha, hb, hm⟩)

/-- **Level clauses make level sentences**, in any order where the order may differ; a refusal names
canonical forms. -/
theorem Sentence.ofClauses_level {l m : List (Clause N)}
    (h : v.Lists (fun c d => compare c d = .eq) l m) (limit : ℕ) :
    LevelOutcomes v (ofClauses limit l) (ofClauses limit m) := by
  obtain ⟨k, hk, hperm⟩ := h.exists_perm
  have hanswer := (sameEdges (.refl l) hk hperm).ofEdges_sameAnswer (payloadDecides l) limit
  rw [ofClauses_eq, ofClauses_eq]
  cases hg : TreeGraph.ofEdges limit (l.map edgeOf) with
  | error e =>
    cases hg' : TreeGraph.ofEdges limit (m.map edgeOf) with
    | error e' =>
      rw [hg, hg'] at hanswer
      exact .error (congrArg Error.gist (refusal_eq hanswer))
    | ok g' => rw [hg, hg'] at hanswer; cases hanswer
  | ok g =>
    cases hg' : TreeGraph.ofEdges limit (m.map edgeOf) with
    | error e' => rw [hg, hg'] at hanswer; cases hanswer
    | ok g' =>
      rw [hg, hg'] at hanswer
      cases hanswer with
      | tree _ _ _ hpayloads => exact .ok (Sentence.compare_eq_iff.2 hpayloads)

end Nodes

/-! ## Texts and links -/

/-- Members that are level are kept or dropped alike. -/
theorem Text.gather_level {l m : List Proposition}
    (h : v.Sets (fun p q => compare p.toPart q.toPart = .eq) l m) :
    LevelOutcomes v (gather l) (gather m) := by
  obtain ⟨hforth, hback⟩ := h.cover
  have hmembers : Alike compare (keepFirst compare l) (keepFirst compare m) :=
    keepFirst_alike_of_mem
      (fun p hp => (hforth p hp).imp fun _ hq => ⟨hq.1, Proposition.compare_eq_of_toPart hq.2⟩)
      fun q hq => (hback q hq).imp fun _ hp =>
        ⟨hp.1, OrientedCmp.eq_symm (Proposition.compare_eq_of_toPart hp.2)⟩
  rw [gather, gather]
  generalize keepFirst compare l = l', keepFirst compare m = m' at hmembers
  cases hmembers with
  | nil => exact .error rfl
  | cons hpq hmembers => exact .ok (Text.compare_eq_iff.2 (.cons hpq hmembers))

theorem Part.hasChild_eq {p p' q q' : Part} (hp : compare p p' = .eq) (hq : compare q q' = .eq) :
    p.hasChild q = p'.hasChild q' :=
  Bool.eq_iff_iff.2 ⟨hasChild_congr hp hq,
    hasChild_congr (OrientedCmp.eq_symm hp) (OrientedCmp.eq_symm hq)⟩

/-- The step at which a path breaks off is the same; only how it is written may differ. -/
theorem Path.ofSteps_level {l m : List Part} (h : Alike compare l m) :
    LevelOutcomes v (ofSteps (l.map .part)) (ofSteps (m.map .part)) := by
  cases h with
  | nil => exact .error rfl
  | @cons p q l m hpq h =>
    have hchild : ∀ ⦃p p' q q' : Part⦄, compare p p' = .eq → compare q q' = .eq →
        (!(Expression.part p).hasChild (.part q)) = !(Expression.part p').hasChild (.part q') :=
      fun _ _ _ _ hp hq => by
        rw [Expression.hasChild_part, Expression.hasChild_part, Part.hasChild_eq hp hq]
    have hpair := neighbours?_alike hchild (List.Forall₂.cons hpq h)
    rw [List.map_cons, List.map_cons, ofSteps, ofSteps, ← List.map_cons, ← List.map_cons,
      neighbours?_map, neighbours?_map]
    generalize neighbours? _ (_ :: _) = x at hpair ⊢
    generalize neighbours? _ (_ :: _) = y at hpair ⊢
    cases hpair with
    | none => exact .ok (Path.compare_eq_iff.2 (.cons hpq (Alike.map h fun hab => hab)))
    | some _ => exact .error rfl

/-- What is level with a part is a part. -/
theorem Expression.exists_level_part {p : Part} {x : Expression} (h : compare (part p) x = .eq) :
    ∃ q, x = part q ∧ compare p q = .eq := by
  cases x with
  | part q => exact ⟨q, rfl, h⟩
  | text t => cases p <;> cases h
  | hypertext web => cases p <;> cases h

theorem Expression.exists_level_parts {l : List Part} {m : List Expression}
    (h : Alike compare (l.map part) m) : ∃ k, m = k.map part ∧ Alike compare l k := by
  induction l generalizing m with
  | nil =>
    cases h
    exact ⟨[], rfl, .nil⟩
  | cons p l ih =>
    obtain _ | ⟨hpx, hrest⟩ := h
    obtain ⟨q, rfl, hpq⟩ := exists_level_part hpx
    obtain ⟨k, rfl, hk⟩ := ih hrest
    exact ⟨q :: k, rfl, .cons hpq hk⟩

/-- What is level with the way to a place is a way to a place. -/
theorem Anchor.exists_level {a : Anchor} {path : Path} (h : compare a.path path = .eq) :
    ∃ a' : Anchor, path = a'.path ∧ Alike compare a.steps a'.steps := by
  obtain ⟨first, rest⟩ := path
  obtain _ | ⟨hfirst, hrest⟩ := Path.compare_eq_iff.1 h
  obtain ⟨q, rfl, hq⟩ := Expression.exists_level_part hfirst
  obtain ⟨descent, rfl, hdescent⟩ := Expression.exists_level_parts hrest
  obtain ⟨member, rfl⟩ := Proposition.exists_toPart_eq (Part.kind_eq_of_compare hq).symm
  exact ⟨⟨member, descent⟩, rfl, .cons hq hdescent⟩

/-- A link along one of two level ways has a level link along the other. -/
theorem Hyperlink.exists_level_along {s s' t t' : Text} {p p' : Path} (hs : compare s s' = .eq)
    (ht : compare t t' = .eq) (hp : compare p p' = .eq) {l : Hyperlink}
    (hl : along s t p = .ok l) : ∃ l', along s' t' p' = .ok l' ∧ compare l l' = .eq := by
  obtain ⟨hreach, hanchor, rfl, rfl⟩ := along_eq_ok_iff.1 hl
  obtain rfl : p = l.anchor.path := by
    obtain ⟨first, rest⟩ := p
    obtain ⟨rfl, rfl⟩ := List.cons.inj (Path.steps_of_anchor? hanchor)
    rfl
  obtain ⟨a, rfl, hsteps⟩ := Anchor.exists_level hp
  obtain ⟨m, hm, hmember⟩ := (Path.isReachableIn_iff rfl).1 hreach
  obtain ⟨m', hm', hmm'⟩ := exists_mem_of_forall₂ (Text.compare_eq_iff.1 hs) hm
  have hfirst := Proposition.compare_eq_of_toPart (List.forall₂_cons.1 hsteps).1
  refine ⟨_, Anchor.along_eq t' ⟨m', hm', ?_⟩, Hyperlink.compare_eq_iff.2 ⟨hs, hsteps, ht⟩⟩
  exact TransCmp.eq_trans (OrientedCmp.eq_symm hmm') (TransCmp.eq_trans hmember hfirst)

/-- A link is refused for one reason, for whatever path. -/
theorem Hyperlink.along_eq_error {s t : Text} {p : Path} {e : Error} (h : along s t p = .error e) :
    e.gist = .invalidArgument .hyperlink (.unreachable "" "") := by
  rw [along] at h
  split at h <;> cases h
  rfl

/-- **Level links**: along level paths between level texts. -/
theorem Hyperlink.along_level {s s' t t' : Text} {p p' : Path} (hs : compare s s' = .eq)
    (ht : compare t t' = .eq) (hp : compare p p' = .eq) :
    LevelOutcomes v (along s t p) (along s' t' p') := by
  cases hl : along s t p with
  | ok l =>
    obtain ⟨l', hl', hlevel⟩ := exists_level_along hs ht hp hl
    rw [hl']
    exact .ok hlevel
  | error e =>
    cases hl' : along s' t' p' with
    | ok l' =>
      obtain ⟨l, hok, -⟩ := exists_level_along (OrientedCmp.eq_symm hs) (OrientedCmp.eq_symm ht)
        (OrientedCmp.eq_symm hp) hl'
      rw [hl] at hok
      cases hok
    | error e' => exact .error ((along_eq_error hl).trans (along_eq_error hl').symm)

/-- Hypertexts are refused only without any link. -/
theorem Hypertext.ofLinks_level {l m : List Hyperlink}
    (h : v.Sets (fun a b => compare a b = .eq) l m) :
    LevelOutcomes v (ofLinks l) (ofLinks m) := by
  obtain ⟨hforth, hback⟩ := h.cover
  have hlinks : Alike compare (keepLast compare l) (keepLast compare m) :=
    keepLast_alike hforth fun b hb =>
      (hback b hb).imp fun _ ha => ⟨ha.1, OrientedCmp.eq_symm ha.2⟩
  rw [ofLinks, ofLinks]
  generalize keepLast compare l = l', keepLast compare m = m' at hlinks
  cases hlinks with
  | nil => exact .error rfl
  | cons hab hlinks => exact .ok (Hypertext.compare_eq_iff.2 (.cons hab hlinks))

/-! ## Readings -/

/-- **Readings by one dictionary run in lockstep** up to level results. -/
def Lockstep.level (v : Variation) {c c' : Context} (hdictionary : c.dictionary = c'.dictionary)
    (hmaxNodes : c.maxNodes = c'.maxNodes) (hsource : c.source = c'.source) :
    Lockstep v (fun e e' => e.gist = e'.gist) c c' where
  alike a b := compare a b = .eq
  embed hf _ _ h := (hf _ _).trans h
  term {f f'} h := by
    rw [TermForm.resolve, TermForm.resolve, ← hdictionary, ← h]
    cases c.dictionary.term? f.script with
    | some t => exact .ok (level_self compare t)
    | none => exact .error (by simp [Error.gist, Context.unknownTerm, h, hsource])
  morpheme h := Morpheme.ofTerms_level h
  word hm hmode _ := by
    refine Word.compare_eq_iff.2 ⟨hm, ?_⟩
    cases hmode with
    | none => rfl
    | some hmode => exact hmode
  clause := Clause.of_level
  sentence h _ := hmaxNodes ▸ (Sentence.ofClauses_level h c.maxNodes).mono fun h => h
  text := Text.gather_level
  path := Path.ofSteps_level
  link := Hyperlink.along_level
  hypertext := Hypertext.ofLinks_level

end Metalanguage
