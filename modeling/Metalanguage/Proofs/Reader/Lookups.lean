import Mathlib.Data.List.Perm.Basic
import Metalanguage.Proofs.Grammar.Terms

/-!
# Proofs/Reader/Lookups — in which order terms are looked up

The terms of a form are looked up in the order of the text, but for links: there those of the target
come before those of the steps, which stand in front of it (`AnchorForm.lookups`). So of two terms the
one in front is looked up before the other one, unless that stands in the target of a link and this in
its steps (`ExpressionForm.exists_crosses`).
-/

namespace Metalanguage

/-- The terms of a link in the order of their lookup: the target first. -/
def AnchorForm.lookups (f : AnchorForm) : List TermForm :=
  f.target.terms ++ f.steps.flatMap PartForm.terms

/-- **The terms of an expression in the order of their lookup.** -/
def ExpressionForm.lookups : ExpressionForm → List TermForm := termsBy AnchorForm.lookups

/-- The links of an expression. -/
def ExpressionForm.links : ExpressionForm → List AnchorForm
  | part _ => []
  | text _ => []
  | hypertext blocks => blocks.flatMap fun b => b.members.flatMap (·.anchors)

/-- One term in the target of a link, and another one in the steps to it. -/
def AnchorForm.Crosses (f : AnchorForm) (t u : TermForm) : Prop :=
  t ∈ f.target.terms ∧ u ∈ f.steps.flatMap PartForm.terms

/-! ## Lists in another order -/

section Resorted

variable {α β : Type}

/-- **One list in another order**, with what is left of a relation between earlier entries and later
ones. -/
def Resorted (R S : α → α → Prop) (l m : List α) : Prop :=
  l.Perm m ∧ (l.Pairwise R → m.Pairwise S)

namespace Resorted

variable {R S : α → α → Prop} (hRS : ∀ {a b}, R a b → S a b)

include hRS

theorem refl (l : List α) : Resorted R S l l := ⟨.refl l, List.Pairwise.imp hRS⟩

/-- Two lists that are sorted again one by one are so in a row. -/
theorem append {l l' m m' : List α} (h : Resorted R S l m) (h' : Resorted R S l' m') :
    Resorted R S (l ++ l') (m ++ m') := by
  refine ⟨h.1.append h'.1, fun hall => ?_⟩
  obtain ⟨hl, hl', hacross⟩ := List.pairwise_append.1 hall
  exact List.pairwise_append.2 ⟨h.2 hl, h'.2 hl', fun a ha b hb =>
    hRS (hacross a (h.1.mem_iff.2 ha) b (h'.1.mem_iff.2 hb))⟩

theorem flatMap {f g : β → List α} {k : List β} (h : ∀ b ∈ k, Resorted R S (f b) (g b)) :
    Resorted R S (k.flatMap f) (k.flatMap g) := by
  refine ⟨List.Perm.flatMap_left k fun b hb => (h b hb).1, fun hall => ?_⟩
  obtain ⟨heach, hacross⟩ := List.pairwise_flatMap.1 hall
  refine List.pairwise_flatMap.2 ⟨fun b hb => (h b hb).2 (heach b hb), ?_⟩
  exact hacross.imp_of_mem fun hb hb' hbb a ha a' ha' =>
    hRS (hbb a ((h _ hb).1.mem_iff.2 ha) a' ((h _ hb').1.mem_iff.2 ha'))

end Resorted

end Resorted

/-! ## Terms -/

section Terms

variable {R S : TermForm → TermForm → Prop} (hRS : ∀ {t u}, R t u → S t u)

include hRS

/-- **Within a link** the target goes in front of the steps, and that is all that changes. -/
theorem AnchorForm.resorted_lookups {f : AnchorForm} (hS : ∀ {t u}, f.Crosses t u → S t u) :
    Resorted R S f.terms f.lookups := by
  refine ⟨List.perm_append_comm, fun hall => ?_⟩
  obtain ⟨hsteps, htarget, -⟩ := List.pairwise_append.1 hall
  exact List.pairwise_append.2 ⟨htarget.imp hRS, hsteps.imp hRS, fun t ht u hu => hS ⟨ht, hu⟩⟩

/-- A member is looked up before its links. -/
theorem MemberForm.resorted_lookups {f : MemberForm}
    (hS : ∀ a ∈ f.anchors, ∀ {t u}, a.Crosses t u → S t u) :
    Resorted R S (f.termsBy AnchorForm.terms) (f.termsBy AnchorForm.lookups) :=
  (Resorted.refl hRS _).append hRS <| Resorted.flatMap hRS fun a ha =>
    AnchorForm.resorted_lookups hRS (hS a ha)

end Terms

/-- **Terms are looked up as they stand**, but for the two sides of a link. -/
theorem ExpressionForm.resorted_lookups (R : TermForm → TermForm → Prop) (f : ExpressionForm) :
    Resorted R (fun t u => R t u ∨ ∃ a ∈ f.links, a.Crosses t u) f.terms f.lookups := by
  cases f with
  | part f => exact .refl .inl _
  | text f => exact .refl .inl _
  | hypertext blocks =>
    refine Resorted.flatMap .inl fun b hb => Resorted.flatMap .inl fun m hm => ?_
    refine MemberForm.resorted_lookups .inl fun a ha _ _ hcross => .inr ⟨a, ?_, hcross⟩
    exact List.mem_flatMap.2 ⟨b, hb, List.mem_flatMap.2 ⟨m, hm, ha⟩⟩

/-- The same terms are looked up as are listed. -/
theorem ExpressionForm.mem_lookups {f : ExpressionForm} {t : TermForm} :
    t ∈ f.lookups ↔ t ∈ f.terms := ((f.resorted_lookups fun _ _ => True).1.mem_iff).symm

/-- **What stands in front of a term is looked up before it**, but for the two sides of a link. -/
theorem ExpressionForm.exists_crosses {f : ExpressionForm}
    (hordered : f.terms.Pairwise fun t u => t.range.start < u.range.start)
    {before after : List TermForm} {t u : TermForm} (ht : f.lookups = before ++ t :: after)
    (hu : u ∈ f.terms) (hbefore : u ∉ before) (hlt : u.range.start < t.range.start) :
    ∃ a ∈ f.links, a.Crosses t u := by
  have hsorted := (f.resorted_lookups fun t u => t.range.start < u.range.start).2 hordered
  rw [ht] at hsorted
  -- a term other than `t` that is not looked up before it is looked up behind it
  have hbehind : u ∈ after := by
    rw [← mem_lookups, ht, List.mem_append, List.mem_cons] at hu
    rcases hu with hu | rfl | hu
    · exact absurd hu hbefore
    · exact absurd hlt (Nat.lt_irrefl _)
    · exact hu
  have hafter := List.rel_of_pairwise_cons (List.pairwise_append.1 hsorted).2.1 hbehind
  exact hafter.resolve_left hlt.not_gt

end Metalanguage
