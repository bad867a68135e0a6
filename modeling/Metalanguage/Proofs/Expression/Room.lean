import Metalanguage.Proofs.Expression.Written
import Metalanguage.Proofs.Grammar.Room

/-!
# Proofs/Expression/Room — how many bytes an expression is written in

The written forms are put together from the forms of what is in them, so their sizes are sums
(`Clause.size_choose`, `Sentence.size_choose_le`, `Text.size_enclose`). In a hypertext each source
text is written once, and each link once at most, behind the member that it starts from
(`Hypertext.Facts.size_canonical_le`).
-/

namespace Metalanguage

open Std Ordered

/-! ## Sums -/

/-- A smaller collection weighs no more. -/
theorem sum_map_le_of_subperm {α : Type} {l m : List α} (h : l.Subperm m) (w : α → ℕ) :
    (l.map w).sum ≤ (m.map w).sum := by
  obtain ⟨k, hperm, hsub⟩ := h
  rw [← (hperm.map w).sum_eq]
  exact (hsub.map w).sum_le_sum fun _ _ => Nat.zero_le _

/-- **What is picked by several questions, no two of which pick the same,** weighs no more than
the list that it is picked from. -/
theorem sum_filter_le {α β : Type} {p : β → α → Bool} (w : α → ℕ) : ∀ {ks : List β} {l : List α},
    ks.Pairwise (fun a b => ∀ x ∈ l, p a x = true → p b x = false) →
      (ks.map fun k => ((l.filter (p k)).map w).sum).sum ≤ (l.map w).sum
  | [], _, _ => Nat.zero_le _
  | k :: ks, l, h => by
    obtain ⟨hk, hks⟩ := List.pairwise_cons.1 h
    -- The other questions pick from what the first one leaves.
    have hrest : ∀ b ∈ ks, l.filter (p b) = (l.filter (!p k ·)).filter (p b) := by
      intro b hb
      rw [List.filter_filter]
      refine List.filter_congr fun x hx => ?_
      cases hkx : p k x with
      | false => simp
      | true => simp [hk b hb x hx hkx]
    have hle := sum_filter_le (p := p) w (l := l.filter (!p k ·))
      (hks.imp fun hab x hx => hab x (List.mem_of_mem_filter hx))
    have hsplit := ((List.filter_append_perm (p k) l).map w).sum_eq
    rw [List.map_append, List.sum_append] at hsplit
    rw [List.map_cons, List.sum_cons,
      List.map_congr_left fun b hb => congrArg (fun l => (l.map w).sum) (hrest b hb)]
    omega

/-! ## Texts put together -/

/-- Two brackets take two bytes. -/
theorem size_enclosed {opening closing : String} (ho : opening.utf8ByteSize = 1)
    (hc : closing.utf8ByteSize = 1) (s : String) :
    (opening ++ s ++ closing).utf8ByteSize = s.utf8ByteSize + 2 := by
  rw [String.utf8ByteSize_append, String.utf8ByteSize_append, ho, hc]
  omega

theorem size_join (l : List String) :
    (String.join l).utf8ByteSize = (l.map String.utf8ByteSize).sum := by
  induction l with
  | nil => rfl
  | cons s l ih => rw [String.join_cons, String.utf8ByteSize_append, ih, List.map_cons, List.sum_cons]

/-- All texts but the last have a separator behind. -/
theorem size_intercalate_le {separator : String} (hs : separator.utf8ByteSize = 1) :
    ∀ {l : List String} {n : ℕ}, (l.map fun s => s.utf8ByteSize + 1).sum ≤ n + 1 →
      (separator.intercalate l).utf8ByteSize ≤ n
  | [], n, _ => Nat.zero_le n
  | [s], n, h => by
    simp only [List.map_cons, List.map_nil, List.sum_cons, List.sum_nil] at h
    rw [String.intercalate_singleton]
    omega
  | s :: t :: l, n, h => by
    have hrest := size_intercalate_le hs (l := t :: l) (n := n - (s.utf8ByteSize + 1)) (by
      simp only [List.map_cons, List.sum_cons] at h ⊢
      omega)
    simp only [List.map_cons, List.sum_cons] at h
    rw [String.intercalate_cons_cons, String.utf8ByteSize_append, String.utf8ByteSize_append, hs]
    omega

theorem size_displayAll (ls : List Literal) :
    (Literal.displayAll ls).utf8ByteSize = (ls.map (·.display.utf8ByteSize)).sum := by
  rw [Literal.displayAll, size_join, List.map_map]
  rfl

/-! ## Levels below texts -/

variable {s : Style} {n : ℕ}

theorem Term.size_canonical (t : Term) : t.canonical.utf8ByteSize = t.script.utf8ByteSize + 2 :=
  size_enclosed rfl rfl t.script

/-- A morpheme takes a byte for each term but one, and two brackets ... -/
theorem Morpheme.size_canonical_le {m : Morpheme}
    (h : (m.terms.map (·.canonical.utf8ByteSize + 1)).sum ≤ n + 1) :
    m.canonical.utf8ByteSize ≤ n + 2 := by
  have hbar : "|".utf8ByteSize = 1 := rfl
  have hterms := size_intercalate_le hbar (l := m.terms.map Term.canonical) (n := n)
    (by rwa [List.map_map])
  rw [canonical, size_enclosed rfl rfl]
  omega

/-- ... and a word the same for its morphemes. -/
theorem Word.size_canonical_le {w : Word}
    (h : (w.morphemes.map (·.canonical.utf8ByteSize + 1)).sum ≤ n + 1) :
    w.canonical.utf8ByteSize ≤ n + 2 := by
  have hstar : "*".utf8ByteSize = 1 := rfl
  have hmorphemes := size_intercalate_le hstar (l := w.morphemes.map Morpheme.canonical) (n := n)
    (by rwa [List.map_map])
  rw [canonical, size_enclosed rfl rfl]
  omega

/-- The literals that show are among those that there are. -/
theorem size_literals_le (ls : List Literal) :
    (Literal.displayAll (s.literals ls)).utf8ByteSize ≤
      (ls.map (·.display.utf8ByteSize)).sum := by
  rw [size_displayAll]
  cases s with
  | canonical => exact Nat.zero_le _
  | written => exact Nat.le_refl _

/-- Literals add their own sizes, if they show. -/
theorem Word.size_node_le (w : Word) : (s.node w).utf8ByteSize ≤
    w.canonical.utf8ByteSize + (w.literals.map (·.display.utf8ByteSize)).sum := by
  have htext : s.node w = w.canonical ++ Literal.displayAll (s.literals w.literals) := by
    cases s with
    | canonical => exact String.append_empty.symm
    | written => rfl
  rw [htext, String.utf8ByteSize_append]
  exact Nat.add_le_add_left (size_literals_le w.literals) _

section Nodes

variable {N : Type} [ClauseNode N]

/-- A clause takes two brackets and two stars beside its nodes. -/
theorem Clause.size_choose (c : Clause N) : (s.choose c.canonical c.display).utf8ByteSize =
    (s.node c.substance).utf8ByteSize + (s.node c.attr).utf8ByteSize +
      (s.node c.mode).utf8ByteSize + 4 := by
  have htext : s.choose c.canonical c.display = "(" ++ (s.node c.substance ++ "*" ++
      (s.node c.attr ++ "*" ++ s.node c.mode)) ++ ")" := by
    cases s <;>
      simp [Style.choose, Clause.canonical, Clause.display, Clause.nodes,
        String.intercalate_cons_cons, String.append_assoc]
  have hstar : "*".utf8ByteSize = 1 := rfl
  rw [htext, size_enclosed rfl rfl]
  simp only [String.utf8ByteSize_append, hstar]
  omega

/-- A sentence takes two brackets, a plus sign for each clause but one, and its literals if they
show. -/
theorem Sentence.size_choose_le {t : Sentence N}
    (h : (t.clauses.map fun c => (s.choose c.canonical c.display).utf8ByteSize + 1).sum ≤ n + 1) :
    (s.choose t.canonical t.display).utf8ByteSize ≤
      n + 2 + (t.literals.map (·.display.utf8ByteSize)).sum := by
  have htext : s.choose t.canonical t.display =
      "[" ++ "+".intercalate (t.clauses.map fun c => s.choose c.canonical c.display) ++ "]" ++
        Literal.displayAll (s.literals t.literals) := by
    cases s with
    | canonical => exact String.append_empty.symm
    | written => rfl
  have hplus : "+".utf8ByteSize = 1 := rfl
  have hclauses := size_intercalate_le hplus
    (l := t.clauses.map fun c => s.choose c.canonical c.display) (n := n) (by rwa [List.map_map])
  have hliterals := size_literals_le (s := s) t.literals
  rw [htext, String.utf8ByteSize_append, size_enclosed rfl rfl]
  omega

end Nodes

/-! ## Texts -/

/-- A text takes two slashes for each member and two brackets. -/
theorem Text.size_enclose {X : Type} (l : List X) (text : X → String) :
    (Text.enclose (l.map text)).utf8ByteSize =
      (l.map fun x => (text x).utf8ByteSize + 2).sum + 2 := by
  rw [Text.enclose, size_enclosed rfl rfl, size_join, List.map_map, List.map_map]
  refine congrArg (·.sum + 2) (List.map_congr_left fun x _ => ?_)
  have hslash : "/".utf8ByteSize = 1 := rfl
  exact size_enclosed hslash hslash (text x)

theorem Text.size_choose (t : Text) : (s.choose t.canonical t.display).utf8ByteSize =
    (t.members.map fun p => (s.part p.toPart).utf8ByteSize + 2).sum + 2 := by
  rw [← size_enclose]
  cases s <;> rfl

/-! ## Hypertexts -/

/-- The size of what is written behind a member for a link. -/
def Hyperlink.suffixSize (l : Hyperlink) : ℕ := (Hypertext.linkSuffix l).utf8ByteSize

/-- A link takes a mark for each step, and its target. -/
theorem Hyperlink.suffixSize_eq (l : Hyperlink) : l.suffixSize =
    (l.anchor.descent.map (·.canonical.utf8ByteSize + 1)).sum +
      l.target.canonical.utf8ByteSize := by
  rw [suffixSize, Hypertext.linkSuffix, String.utf8ByteSize_append, size_join, List.map_map]
  have hstep : ∀ p ∈ l.anchor.descent,
      (String.utf8ByteSize ∘ fun step => ">" ++ step.canonical) p =
        p.canonical.utf8ByteSize + 1 := by
    intro p _
    rw [Function.comp_apply, String.utf8ByteSize_append, Nat.add_comm]
    rfl
  rw [List.map_congr_left hstep]

namespace Hypertext

/-- A member with its links takes the sizes of those that start from it. -/
theorem size_memberForm (links : List Hyperlink) (p : Proposition) :
    (memberForm links p).utf8ByteSize = p.canonical.utf8ByteSize +
      ((links.filter fun l => p == l.anchor.member).map (·.suffixSize)).sum := by
  rw [memberForm, String.utf8ByteSize_append, size_join, List.map_map]
  rfl

/-- A source text is as large as without links, and the links from its members. -/
theorem size_blockForm (h : Hypertext) (source : Text) : (h.blockForm source).utf8ByteSize =
    source.canonical.utf8ByteSize +
      (source.members.map fun p => ((h.linksFrom source p).map (·.suffixSize)).sum).sum := by
  have hmember : ∀ p ∈ source.members,
      (memberForm (h.links.filter fun l => compare l.source source == .eq) p).utf8ByteSize + 2 =
        p.canonical.utf8ByteSize + 2 + ((h.linksFrom source p).map (·.suffixSize)).sum := by
    intro p _
    rw [size_memberForm, linksFrom]
    omega
  rw [blockForm, Text.size_enclose, List.map_congr_left hmember, List.sum_map_add, Text.canonical,
    Text.size_enclose]
  omega

variable {k : Stock}

/-- The links from the members of a source are links of that source. -/
theorem sum_linksFrom_le {source : Text} (h : Hypertext) (hsource : source.Facts k) :
    (source.members.map fun p => ((h.linksFrom source p).map (·.suffixSize)).sum).sum ≤
      ((h.links.filter fun l => compare l.source source == .eq).map (·.suffixSize)).sum := by
  refine sum_filter_le (p := fun p (l : Hyperlink) => p == l.anchor.member) _
    (hsource.increasing.imp ?_)
  intro p q hpq l _ hp
  have hp' : compare p l.anchor.member = .eq := Proposition.compare_eq_iff_beq.2 hp
  refine Bool.eq_false_iff.2 fun hq => ?_
  have hq' : compare q l.anchor.member = .eq := Proposition.compare_eq_iff_beq.2 hq
  rw [TransCmp.eq_trans hp' (OrientedCmp.eq_symm hq')] at hpq
  cases hpq

/-- **A hypertext is no larger than its source texts and its links together.** -/
theorem Facts.size_canonical_le {h : Hypertext} (hh : h.Facts k) : h.canonical.utf8ByteSize ≤
    (h.sources.map (·.canonical.utf8ByteSize)).sum + (h.links.map (·.suffixSize)).sum := by
  have hblocks : h.canonical.utf8ByteSize = (h.sources.map (·.canonical.utf8ByteSize)).sum +
      (h.sources.map fun t =>
        (t.members.map fun p => ((h.linksFrom t p).map (·.suffixSize)).sum).sum).sum := by
    rw [canonical, size_join, List.map_map, ← List.sum_map_add]
    exact congrArg List.sum (List.map_congr_left fun t _ => h.size_blockForm t)
  have hsources : (h.sources.map fun t =>
      (t.members.map fun p => ((h.linksFrom t p).map (·.suffixSize)).sum).sum).sum ≤
        (h.sources.map fun t =>
          ((h.links.filter fun l => compare l.source t == .eq).map (·.suffixSize)).sum).sum := by
    refine List.sum_le_sum fun t ht => ?_
    obtain ⟨l, hl, rfl⟩ := exists_link_of_mem_sources ht
    exact h.sum_linksFrom_le (hh.links l hl).source
  have hlinks : (h.sources.map fun t =>
      ((h.links.filter fun l => compare l.source t == .eq).map (·.suffixSize)).sum).sum ≤
        (h.links.map (·.suffixSize)).sum := by
    refine sum_filter_le (p := fun t (l : Hyperlink) => compare l.source t == .eq) _
      ((increasing_keepFirst _).imp fun {t u} htu l _ ht => Bool.eq_false_iff.2 fun hu => ?_)
    have hlevel : compare t u = .eq :=
      TransCmp.eq_trans (OrientedCmp.eq_symm (beq_iff_eq.1 ht)) (beq_iff_eq.1 hu)
    rw [hlevel] at htu
    cases htu
  omega

end Hypertext

end Metalanguage
